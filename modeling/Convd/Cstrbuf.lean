/-
# `Convd.Cstrbuf` — the string buffers of `cstrbuf.h`

A buffer is a length, a size and bytes.  The header is followed by the bytes in one block of
memory; how much of it was asked for is `alloc`, which the code does not store.  What `malloc`
and `realloc` leave in new memory is a parameter of each function that calls them, and so is
every write part of its result, with the size of the block it goes to (`BufWrite`).

    cstrbufNew                    a block of its own        `len + 1`, or a multiple of 16
    cstrbufCat, cstrbufPushBack   in place, or `realloc`    a multiple of 16
    cstrbufDup                    in place, or a new one    `len + 1`
    cstrbufConcat, cstrbufSub     new ones

The arithmetic is that of `ub4`.  `vsnprintf` is given the formatted text; that it is the same
at every call is why `len == vlen` always holds where the source asks.
-/
import Convd.Descriptor

namespace Convd

open CString

/-! ## Sizes -/

/-- `cstrbuf_error_size_len` -/
def cstrbufErrorSizeLen : Nat := 2 ^ 32 - 1

/-- `cstr_length_maximum` -/
def cstrLengthMaximum : Nat := 536870911

/-- A difference of two `ub4`. -/
def subUb4 (a b : Nat) : Nat := toUb4 (a + 2 ^ 32 - b)

/-- `(ub4) i` of an `int`. -/
def ub4OfInt (i : Int) : Nat := (i % 2 ^ 32).toNat

/-- `cstrbuf_alignsize(len)` -/
def cstrbufAlignsize (len : Nat) : Nat := toUb4 (toUb4 (len + 16) / 16 * 16)

/-! ## Memory -/

/-- `cstrbuf_t`, and the bytes there are behind its header. -/
structure Cstrbuf where
  maxsz : Nat
  len : Nat
  alloc : Nat
  str : Mem UInt8

/-- One write to the bytes of a buffer, and how many there are. -/
structure BufWrite where
  span : Span
  size : Nat
  deriving DecidableEq, Repr

/-- The write stays inside the block. -/
def BufWrite.Inside (w : BufWrite) : Prop := w.span.Within w.size

instance (w : BufWrite) : Decidable w.Inside := inferInstanceAs (Decidable (w.span.Within _))

/-- Writes to one block. -/
def writesTo (size : Nat) (spans : List Span) : List BufWrite := spans.map (⟨·, size⟩)

/-- `mem_realloc` of `alloc` bytes behind the header to `size`. -/
def memRealloc (junk m : Mem UInt8) (alloc size : Nat) : Mem UInt8 :=
  fun i => if i < min alloc size then m i else junk i

/-- `vsnprintf` of a text to `size` bytes at `off`.  It returns the length of the text. -/
def vsnprintf (m : Mem UInt8) (off size : Nat) (text : List UInt8) : Mem UInt8 × List Span :=
  if size = 0 then (m, [])
  else
    let printed := text.take (size - 1)
    ((m.store off printed).store (off + printed.length) [0],
      [⟨off, printed.length⟩, ⟨off + printed.length, 1⟩])

/-! ## The code -/

/-- The length a caller means: the one given, or that of the string. -/
def givenLength (len strlen : Nat) : Nat := if len = cstrbufErrorSizeLen then toUb4 strlen else len

/-- `cstr_length(str, -1)`, before it is made an `int`. -/
def cstrLengthAll (str : Option (List UInt8)) : Nat := (str.map cstr).elim 0 List.length

/-- The size `cstrbufNew` asks for. -/
def newMaxsz (maxsz len : Nat) : Nat :=
  if maxsz = 0 then toUb4 (len + 1)
  else if maxsz = cstrbufErrorSizeLen ∨ maxsz ≤ len then cstrbufAlignsize (len + 1)
  else cstrbufAlignsize maxsz

/-- `cstrbufNew` -/
def cstrbufNew (junk : Mem UInt8) (maxsz : Nat) (str : Option (List UInt8)) (len : Nat) :
    Cstrbuf × List BufWrite :=
  let len := givenLength len (cstrLength (str.map cstr) cstrLengthMaximum)
  let maxsz := newMaxsz maxsz len
  let m := junk.store 0 [0]
  match str with
  | some str =>
      (⟨maxsz, len, maxsz,
          (m.store 0 (str.take len)).store len (List.replicate (subUb4 maxsz len) 0)⟩,
        writesTo maxsz [⟨0, 1⟩, ⟨0, len⟩, ⟨len, subUb4 maxsz len⟩])
  | none =>
      (⟨maxsz, 0, maxsz, m.store 0 (List.replicate maxsz 0)⟩,
        writesTo maxsz [⟨0, 1⟩, ⟨0, maxsz⟩])

/-- `cstrbufCat` onto a null pointer. -/
def catNew (junk : Mem UInt8) (text : List UInt8) : Cstrbuf × List BufWrite :=
  let vlen := text.length
  let new := cstrbufNew junk (toUb4 (vlen + 1)) none 0
  let dst := new.1
  let out := vsnprintf dst.str 0 dst.maxsz text
  ({ dst with len := vlen, str := out.1.store vlen [0] },
    new.2 ++ writesTo dst.alloc (out.2 ++ [⟨vlen, 1⟩]))

/-- `cstrbufCat` onto a buffer. -/
def catOnto (junk : Mem UInt8) (dst : Cstrbuf) (text : List UInt8) : Cstrbuf × List BufWrite :=
  let vlen := text.length
  let out := vsnprintf dst.str dst.len (subUb4 dst.maxsz dst.len) text
  let len := toUb4 (dst.len + vlen)
  if len < dst.maxsz then
    ({ dst with len := len, str := out.1.store len [0] }, writesTo dst.alloc (out.2 ++ [⟨len, 1⟩]))
  else
    let maxsz := cstrbufAlignsize (dst.len + vlen + 1)
    let newstr := memRealloc junk out.1 dst.alloc maxsz
    let newout := vsnprintf newstr dst.len (subUb4 maxsz dst.len) text
    (⟨maxsz, len, maxsz, newout.1.store len [0]⟩,
      writesTo dst.alloc out.2 ++ writesTo maxsz (newout.2 ++ [⟨len, 1⟩]))

/-- `cstrbufCat`, of a formatted text. -/
def cstrbufCat (junk : Mem UInt8) (dst : Option Cstrbuf) (text : List UInt8) :
    Cstrbuf × List BufWrite :=
  match dst with
  | none => catNew junk text
  | some dst => catOnto junk dst text

/-- `cstrbufTrunc` -/
def cstrbufTrunc (s : Cstrbuf) (len : Nat) : Cstrbuf × List BufWrite :=
  if s.len > len then
    ({ s with len := len, str := s.str.store len [0] }, writesTo s.alloc [⟨len, 1⟩])
  else (s, [])

/-- What `"%.*s"` prints of a buffer: as much of it as is a string. -/
def printed : Option Cstrbuf → List UInt8
  | none => []
  | some src => cstr (src.str.load 0 src.len)

/-- The loop of `cstrbufConcat`: `result` so far, the next source, and the arguments left.  The
first null pointer among these ends it. -/
def concatLoop (junk : Nat → Mem UInt8) (result src : Option Cstrbuf) :
    List (Option Cstrbuf) → Cstrbuf × List BufWrite
  | some next :: args =>
      let r := cstrbufCat (junk 0) result (printed src)
      let rest := concatLoop (fun k => junk (k + 1)) (some r.1) (some next) args
      (rest.1, r.2 ++ rest.2)
  | none :: _ => cstrbufCat (junk 0) result (printed src)
  | [] => cstrbufCat (junk 0) result (printed src)

/-- `cstrbufConcat` -/
def cstrbufConcat (junk : Nat → Mem UInt8) (start : Option Cstrbuf)
    (args : List (Option Cstrbuf)) : Cstrbuf × List BufWrite :=
  concatLoop junk none start args

/-- `cstrbufDup` -/
def cstrbufDup (junk : Mem UInt8) (dst : Option Cstrbuf) (source : Option (List UInt8))
    (sourcelen : Nat) : Cstrbuf × List BufWrite :=
  match dst with
  | none => cstrbufNew junk 0 source sourcelen
  | some dst =>
      let sourcelen := givenLength sourcelen (cstrLengthAll source)
      if sourcelen = 0 then
        ({ dst with len := 0, str := dst.str.store 0 [0] }, writesTo dst.alloc [⟨0, 1⟩])
      else if dst.maxsz > sourcelen then
        let str := dst.str.store 0 ((source.getD []).take sourcelen)
        ({ dst with len := sourcelen, str := str.store sourcelen [0] },
          writesTo dst.alloc [⟨0, sourcelen⟩, ⟨sourcelen, 1⟩])
      else cstrbufNew junk 0 source sourcelen

/-- `cstrbufSub` -/
def cstrbufSub (junk : Nat → Mem UInt8) (source : List UInt8) (startindex length : Int)
    (substr : List UInt8) (sublen : Int) : Cstrbuf × List BufWrite :=
  let sourlen := toInt (cstr source).length
  let endnew := cstrbufNew (junk 0) 0 (some (source.drop (startindex + length).toNat))
    (ub4OfInt (sourlen - startindex - length))
  let endstr := endnew.1
  let new := cstrbufNew (junk 1) (ub4OfInt (sourlen - length + sublen + 1)) (some source)
    (ub4OfInt startindex)
  let result := new.1
  let str := result.str.store startindex.toNat (substr.take sublen.toNat)
  let str := str.store (startindex + sublen).toNat (endstr.str.load 0 endstr.len)
  let len := ub4OfInt (sourlen - length + sublen)
  ({ result with len := len, str := str.store len [0] },
    endnew.2 ++ (new.2 ++ writesTo result.alloc [⟨startindex.toNat, sublen.toNat⟩,
      ⟨(startindex + sublen).toNat, endstr.len⟩, ⟨len, 1⟩]))

/-- `cstrbufPushBack`.  In place it does not put a NUL behind `ch`. -/
def cstrbufPushBack (junk : Mem UInt8) (dst : Option Cstrbuf) (ch : UInt8) :
    Cstrbuf × List BufWrite :=
  match dst with
  | some dst =>
      if toUb4 (dst.len + 1) < dst.maxsz then
        ({ dst with len := toUb4 (dst.len + 1), str := dst.str.store dst.len [ch] },
          writesTo dst.alloc [⟨dst.len, 1⟩])
      else cstrbufCat junk (some dst) [ch]
  | none => cstrbufCat junk none [ch]

/-! ## Sizes, in range -/

theorem subUb4_of_le {a b : Nat} (hle : b ≤ a) (ha : a < 2 ^ 32) : subUb4 a b = a - b := by
  have hwrap : a + 2 ^ 32 - b = (a - b) + 2 ^ 32 := by omega
  rw [subUb4, toUb4, hwrap, Nat.add_mod_right, Nat.mod_eq_of_lt (by omega)]

theorem ub4OfInt_of_lt {i : Int} {n : Nat} (hi : i = n) (hn : n < 2 ^ 32) : ub4OfInt i = n := by
  have hmod : (n : Int) % 2 ^ 32 = n := Int.emod_eq_of_lt (by omega) (by omega)
  rw [ub4OfInt, hi, hmod, Int.toNat_natCast]

/-- An aligned size is larger than what it is made of. -/
theorem lt_cstrbufAlignsize {len : Nat} (h : len + 16 < 2 ^ 32) :
    len < cstrbufAlignsize len ∧ cstrbufAlignsize len < 2 ^ 32 := by
  rw [cstrbufAlignsize, toUb4_of_lt h, toUb4_of_lt (by omega)]
  omega

/-- A size that `cstrbuf_alignsize` does not wrap. -/
def FitsUb4 (maxsz : Nat) : Prop := maxsz + 16 < 2 ^ 32 ∨ maxsz = cstrbufErrorSizeLen

theorem lt_newMaxsz {maxsz len : Nat} (hmaxsz : FitsUb4 maxsz) (hlen : len < 2 ^ 27) :
    len < newMaxsz maxsz len ∧ newMaxsz maxsz len < 2 ^ 32 := by
  have hnext := @lt_cstrbufAlignsize (len + 1) (by omega)
  rw [newMaxsz]
  split
  · rw [toUb4_of_lt (by omega)]
    omega
  · split
    · omega
    · rename_i hlarge
      rw [not_or] at hlarge
      have hmaxsz := lt_cstrbufAlignsize (hmaxsz.resolve_right hlarge.1)
      omega

/-- At least as much as was asked for. -/
theorem le_newMaxsz {maxsz len : Nat} (hmaxsz : maxsz + 16 < 2 ^ 32) (hlen : len < 2 ^ 27) :
    maxsz ≤ newMaxsz maxsz len := by
  have hlt := (lt_newMaxsz (.inl hmaxsz) hlen).1
  have halign := lt_cstrbufAlignsize hmaxsz
  rw [newMaxsz] at hlt ⊢
  split
  · omega
  · rename_i hpos
    rw [if_neg hpos] at hlt
    split
    · rename_i hsmall
      rw [if_pos hsmall] at hlt
      have herr : cstrbufErrorSizeLen = 2 ^ 32 - 1 := rfl
      omega
    · omega

/-! ## What each function makes -/

/-- The bytes of a buffer. -/
def Cstrbuf.contents (b : Cstrbuf) : List UInt8 := b.str.load 0 b.len

@[simp] theorem Cstrbuf.length_contents (b : Cstrbuf) : b.contents.length = b.len :=
  Mem.length_load _ _ _

/-- There is room for the contents and a byte more, in a size that was asked for. -/
structure Cstrbuf.Sized (b : Cstrbuf) : Prop where
  len_lt : b.len < b.maxsz
  maxsz_le : b.maxsz ≤ b.alloc
  maxsz_lt : b.maxsz < 2 ^ 32

/-- A function has made a buffer with these contents, and written nothing outside of the blocks
it wrote to. -/
structure Makes (r : Cstrbuf × List BufWrite) (contents : List UInt8) : Prop where
  sized : r.1.Sized
  contents_eq : r.1.contents = contents
  inside : ∀ w ∈ r.2, w.Inside

theorem forall_mem_writesTo {size : Nat} {spans : List Span} :
    (∀ w ∈ writesTo size spans, w.Inside) ↔ ∀ a ∈ spans, a.Within size := List.forall_mem_map

/-! ### A text that is handed over -/

/-- The length of it. -/
def meantLength (source : Option (List UInt8)) (len : Nat) : Nat :=
  if len = cstrbufErrorSizeLen then cstrLengthAll source else len

/-- The text itself. -/
def meantText (source : Option (List UInt8)) (len : Nat) : List UInt8 :=
  (source.getD []).take (meantLength source len)

/-- What the caller promises of it: there are as many bytes, or a NUL, and not too many. -/
structure Given (source : Option (List UInt8)) (len : Nat) : Prop where
  readable : ∀ s ∈ source, if len = cstrbufErrorSizeLen then 0 ∈ s else len ≤ s.length
  short : meantLength source len < 2 ^ 27

section Given

variable {source : Option (List UInt8)} {len : Nat}

theorem Given.givenLength_eq (h : Given source len) :
    givenLength len (cstrLengthAll source) = meantLength source len := by
  have hshort := h.short
  rw [givenLength]
  rw [meantLength] at hshort ⊢
  split
  · rename_i herr
    rw [if_pos herr] at hshort
    exact toUb4_of_lt (by omega)
  · rfl

theorem Given.givenLength_maximum (h : Given source len) :
    givenLength len (cstrLength (source.map cstr) cstrLengthMaximum)
      = meantLength source len := by
  have hmax : cstrLengthMaximum = 536870911 := rfl
  have hshort := h.short
  rw [← h.givenLength_eq, givenLength, givenLength]
  split
  · rename_i herr
    rw [meantLength, if_pos herr] at hshort
    cases source with
    | none => rfl
    | some s =>
        have hlt : (cstr s).length < 2 ^ 27 := hshort
        have hmin : min (cstr s).length cstrLengthMaximum = (cstr s).length := by omega
        exact congrArg toUb4 hmin
  · rfl

theorem Given.length_le (h : Given source len) :
    ∀ s ∈ source, meantLength source len ≤ s.length := by
  intro s hs
  have hread := h.readable s hs
  rw [meantLength]
  split at hread
  · rename_i herr
    rw [if_pos herr, Option.mem_def.mp hs]
    exact cstr_length_le s
  · rename_i herr
    rwa [if_neg herr]

end Given

theorem meantLength_of_lt {source : Option (List UInt8)} {len : Nat} (h : len < 2 ^ 27) :
    meantLength source len = len :=
  if_neg (Nat.ne_of_lt (Nat.lt_trans h (by decide)))

/-- A length that is given. -/
theorem given_of_lt {source : Option (List UInt8)} {len : Nat} (hlen : len < 2 ^ 27)
    (hread : ∀ s ∈ source, len ≤ s.length) : Given source len where
  readable := fun s hs => by
    rw [if_neg (Nat.ne_of_lt (Nat.lt_trans hlen (by decide)))]
    exact hread s hs
  short := (meantLength_of_lt hlen).symm ▸ hlen

/-! ### One by one -/

theorem cstrbufNew_makes (junk : Mem UInt8) {maxsz len : Nat} {source : Option (List UInt8)}
    (hmaxsz : FitsUb4 maxsz) (h : Given source len) :
    Makes (cstrbufNew junk maxsz source len) (meantText source len) := by
  obtain ⟨hlt, hlt32⟩ := lt_newMaxsz hmaxsz h.short
  have hlen := h.length_le
  have hgiven := h.givenLength_maximum
  rw [meantText]
  generalize meantLength source len = n at hlt hlt32 hlen hgiven ⊢
  cases source with
  | none =>
      have hzero : 0 < newMaxsz maxsz n := Nat.zero_lt_of_lt hlt
      simp only [cstrbufNew, hgiven]
      refine ⟨⟨hzero, Nat.le_refl _, hlt32⟩, List.take_nil.symm, ?_⟩
      rw [forall_mem_writesTo]
      simp only [List.forall_mem_cons, Span.Within]
      refine ⟨?_, ?_, List.forall_mem_nil _⟩
      · omega
      · omega
  | some s =>
      have htake : (s.take n).length = n := List.length_take_of_le (hlen s rfl)
      simp only [cstrbufNew, hgiven, subUb4_of_le (Nat.le_of_lt hlt) hlt32]
      refine ⟨⟨hlt, Nat.le_refl _, hlt32⟩, ?_, ?_⟩
      · rw [Cstrbuf.contents, Mem.load_store_before _ _ (Nat.le_refl n)]
        have hself := Mem.load_store_self (junk.store 0 [0]) 0 (s.take n)
        rwa [htake] at hself
      · rw [forall_mem_writesTo]
        simp only [List.forall_mem_cons, Span.Within]
        refine ⟨?_, ?_, ?_, List.forall_mem_nil _⟩
        · omega
        · omega
        · omega

theorem cstrbufNew_sizes (junk : Mem UInt8) {maxsz len : Nat} {source : Option (List UInt8)}
    (h : Given source len) :
    (cstrbufNew junk maxsz source len).1.maxsz = newMaxsz maxsz (meantLength source len) ∧
      (cstrbufNew junk maxsz source len).1.alloc = newMaxsz maxsz (meantLength source len) := by
  rw [← h.givenLength_maximum]
  cases source with
  | none => exact ⟨rfl, rfl⟩
  | some s => exact ⟨rfl, rfl⟩

/-! ### Printing -/

section Print

variable {m : Mem UInt8} {off size : Nat} {text : List UInt8}

theorem vsnprintf_fits (m : Mem UInt8) (off : Nat) (h : text.length < size) :
    (vsnprintf m off size text).1 = (m.store off text).store (off + text.length) [0] := by
  have htake : text.take (size - 1) = text := List.take_of_length_le (by omega)
  have hsize : size ≠ 0 := by omega
  rw [vsnprintf, if_neg hsize, htake]

theorem vsnprintf_within (m : Mem UInt8) (off size : Nat) (text : List UInt8) :
    ∀ a ∈ (vsnprintf m off size text).2, a.Within (off + size) := by
  rw [vsnprintf]
  split
  · exact List.forall_mem_nil _
  · have hlen := List.length_take_le (size - 1) text
    simp only [List.forall_mem_cons, Span.Within]
    refine ⟨?_, ?_, List.forall_mem_nil _⟩
    · omega
    · omega

/-- What lies before stays. -/
theorem load_vsnprintf (m : Mem UInt8) (off size : Nat) (text : List UInt8) :
    (vsnprintf m off size text).1.load 0 off = m.load 0 off := by
  rw [vsnprintf]
  split
  · rfl
  · rw [Mem.load_store_before _ _ (Nat.le_add_right off _),
      Mem.load_store_before _ _ (Nat.le_refl off)]

/-- A text that is printed where there is room for it, with the NUL put behind it again. -/
theorem load_vsnprintf_fits (m : Mem UInt8) (off : Nat) (h : text.length < size) :
    ((vsnprintf m off size text).1.store (off + text.length) [0]).load 0 (off + text.length)
      = m.load 0 off ++ text := by
  rw [vsnprintf_fits m off h, Mem.load_store_before _ _ (Nat.le_refl _),
    Mem.load_store_before _ _ (Nat.le_refl _), Mem.load_store_append]

theorem load_memRealloc (junk m : Mem UInt8) {alloc n : Nat} (halloc : n ≤ alloc)
    (hsize : n ≤ size) : (memRealloc junk m alloc size).load 0 n = m.load 0 n := by
  apply Mem.load_congr
  intro i hi
  rw [memRealloc, if_pos (by omega)]

end Print

/-- The bytes of a buffer; a null pointer has none. -/
def textOf (b : Option Cstrbuf) : List UInt8 := b.elim [] Cstrbuf.contents

theorem printed_eq (src : Option Cstrbuf) : printed src = cstr (textOf src) := by
  cases src with
  | none => rfl
  | some b => rfl

theorem catNew_makes (junk : Mem UInt8) {text : List UInt8} (hlen : text.length < 2 ^ 27) :
    Makes (catNew junk text) text := by
  have hgiven : Given none 0 := ⟨(fun _ hs => nomatch hs), by decide⟩
  have hub4 : toUb4 (text.length + 1) = text.length + 1 := toUb4_of_lt (by omega)
  have hnew := @cstrbufNew_makes junk (text.length + 1) 0 none (.inl (by omega)) hgiven
  obtain ⟨hmaxsz, halloc⟩ := @cstrbufNew_sizes junk (text.length + 1) 0 none hgiven
  have hroom := @le_newMaxsz (text.length + 1) (meantLength none 0) (by omega) hgiven.short
  rw [catNew, hub4]
  generalize cstrbufNew junk (text.length + 1) none 0 = r at hnew hmaxsz halloc ⊢
  have hfits : text.length < r.1.maxsz := by omega
  refine ⟨⟨hfits, hnew.sized.maxsz_le, hnew.sized.maxsz_lt⟩, ?_, ?_⟩
  · have hload := load_vsnprintf_fits r.1.str 0 hfits
    rwa [Nat.zero_add] at hload
  · rw [List.forall_mem_append, forall_mem_writesTo, List.forall_mem_append]
    refine ⟨hnew.inside, ?_, ?_⟩
    · intro a ha
      have hin := vsnprintf_within r.1.str 0 r.1.maxsz text a ha
      have hle := hnew.sized.maxsz_le
      rw [Span.Within] at hin ⊢
      omega
    · rw [List.forall_mem_singleton]
      show text.length + 1 ≤ r.1.alloc
      omega

/-- Where the text fits it is printed once, else cut off and, in more memory, once more. -/
theorem catOnto_makes (junk : Mem UInt8) {dst : Cstrbuf} {text : List UInt8} (hdst : dst.Sized)
    (hlen : (dst.contents ++ text).length < 2 ^ 27) :
    Makes (catOnto junk dst text) (dst.contents ++ text) := by
  obtain ⟨hlt, hle, hlt32⟩ := hdst
  rw [List.length_append, Cstrbuf.length_contents] at hlen
  have hub4 : toUb4 (dst.len + text.length) = dst.len + text.length := toUb4_of_lt (by omega)
  have hsize : subUb4 dst.maxsz dst.len = dst.maxsz - dst.len :=
    subUb4_of_le (Nat.le_of_lt hlt) hlt32
  have hspans := vsnprintf_within dst.str dst.len (dst.maxsz - dst.len) text
  have hinside : ∀ a ∈ (vsnprintf dst.str dst.len (dst.maxsz - dst.len) text).2,
      a.Within dst.alloc := by
    intro a ha
    have hin := hspans a ha
    rw [Span.Within] at hin ⊢
    omega
  simp only [catOnto, hub4, hsize]
  split
  · rename_i hfits
    refine ⟨⟨hfits, hle, hlt32⟩, load_vsnprintf_fits _ _ (by omega), ?_⟩
    rw [forall_mem_writesTo, List.forall_mem_append, List.forall_mem_singleton]
    refine ⟨hinside, ?_⟩
    show dst.len + text.length + 1 ≤ dst.alloc
    omega
  · obtain ⟨hnext, hnext32⟩ := @lt_cstrbufAlignsize (dst.len + text.length + 1) (by omega)
    generalize cstrbufAlignsize (dst.len + text.length + 1) = maxsz at hnext hnext32
    have hend : dst.len + text.length < maxsz := Nat.lt_of_succ_lt hnext
    have hroom : text.length < maxsz - dst.len := Nat.lt_sub_of_add_lt (by omega)
    have hbefore : dst.len ≤ maxsz := by omega
    have halloc : dst.len ≤ dst.alloc := by omega
    rw [subUb4_of_le hbefore hnext32]
    refine ⟨⟨hend, Nat.le_refl _, hnext32⟩, ?_, ?_⟩
    · refine (load_vsnprintf_fits _ _ hroom).trans ?_
      rw [load_memRealloc junk _ halloc hbefore, load_vsnprintf]
      rfl
    · rw [List.forall_mem_append, forall_mem_writesTo, forall_mem_writesTo,
        List.forall_mem_append, List.forall_mem_singleton]
      refine ⟨hinside, ?_, ?_⟩
      · intro a ha
        have hin := vsnprintf_within _ _ _ _ a ha
        rw [Span.Within] at hin ⊢
        omega
      · show dst.len + text.length + 1 ≤ maxsz
        omega

theorem cstrbufCat_makes (junk : Mem UInt8) {dst : Option Cstrbuf} {text : List UInt8}
    (hdst : ∀ b ∈ dst, b.Sized) (hlen : (textOf dst ++ text).length < 2 ^ 27) :
    Makes (cstrbufCat junk dst text) (textOf dst ++ text) := by
  cases dst with
  | none => exact catNew_makes junk hlen
  | some b => exact catOnto_makes junk (hdst b rfl) hlen

theorem cstrbufTrunc_makes {s : Cstrbuf} (hs : s.Sized) (len : Nat) :
    Makes (cstrbufTrunc s len) (s.contents.take len) := by
  obtain ⟨hlt, hle, hlt32⟩ := hs
  rw [cstrbufTrunc]
  split
  · rename_i hcut
    refine ⟨⟨Nat.lt_trans hcut hlt, hle, hlt32⟩, ?_, ?_⟩
    · refine (Mem.load_store_before _ _ (Nat.le_refl len)).trans ?_
      exact (Mem.take_load _ _ (Nat.le_of_lt hcut)).symm
    · rw [forall_mem_writesTo, List.forall_mem_singleton]
      show len + 1 ≤ s.alloc
      omega
  · rename_i hshort
    refine ⟨⟨hlt, hle, hlt32⟩, ?_, List.forall_mem_nil _⟩
    rw [List.take_of_length_le]
    rw [Cstrbuf.length_contents]
    omega

/-- What there is before the first null pointer. -/
def untilNull {α : Type} : List (Option α) → List α
  | some a :: l => a :: untilNull l
  | none :: _ => []
  | [] => []

/-- The loop prints one source after another onto the result. -/
theorem concatLoop_makes {args : List (Option Cstrbuf)} :
    ∀ (junk : Nat → Mem UInt8) {result src : Option Cstrbuf}, (∀ b ∈ result, b.Sized) →
      (textOf result ++ printed src ++ (untilNull args).flatMap (printed <| some ·)).length
        < 2 ^ 27 →
      Makes (concatLoop junk result src args)
        (textOf result ++ printed src ++ (untilNull args).flatMap (printed <| some ·)) := by
  induction args with
  | nil =>
      intro junk result src hresult hlen
      rw [untilNull, List.flatMap_nil, List.append_nil] at hlen ⊢
      exact cstrbufCat_makes (junk 0) hresult hlen
  | cons next args ih =>
      intro junk result src hresult hlen
      cases next with
      | none =>
          rw [untilNull, List.flatMap_nil, List.append_nil] at hlen ⊢
          exact cstrbufCat_makes (junk 0) hresult hlen
      | some next =>
          rw [untilNull, List.flatMap_cons, ← List.append_assoc] at hlen ⊢
          have hcat : (textOf result ++ printed src).length < 2 ^ 27 := by
            simp only [List.length_append] at hlen ⊢
            omega
          have hr := cstrbufCat_makes (junk 0) hresult hcat
          have htext : textOf (some (cstrbufCat (junk 0) result (printed src)).1)
              = textOf result ++ printed src := hr.contents_eq
          have hsized : ∀ b ∈ some (cstrbufCat (junk 0) result (printed src)).1, b.Sized := by
            intro b hb
            cases hb
            exact hr.sized
          rw [← htext] at hlen ⊢
          have hrest := ih (fun k => junk (k + 1)) hsized hlen
          refine ⟨hrest.sized, hrest.contents_eq, ?_⟩
          exact List.forall_mem_append.mpr ⟨hr.inside, hrest.inside⟩

theorem cstrbufConcat_makes (junk : Nat → Mem UInt8) {start : Option Cstrbuf}
    {args : List (Option Cstrbuf)}
    (hlen : (printed start ++ (untilNull args).flatMap (printed <| some ·)).length < 2 ^ 27) :
    Makes (cstrbufConcat junk start args)
      (printed start ++ (untilNull args).flatMap (printed <| some ·)) :=
  concatLoop_makes junk (fun _ hb => nomatch hb) hlen

/-- The old contents give way to the text; a null pointer has none to copy in place. -/
theorem cstrbufDup_makes (junk : Mem UInt8) {dst : Option Cstrbuf}
    {source : Option (List UInt8)} {sourcelen : Nat} (hdst : ∀ b ∈ dst, b.Sized)
    (h : Given source sourcelen)
    (hnull : dst.isSome = true → source = none → meantLength source sourcelen = 0) :
    Makes (cstrbufDup junk dst source sourcelen) (meantText source sourcelen) := by
  have hzero : FitsUb4 0 := .inl (by decide)
  cases dst with
  | none => exact cstrbufNew_makes junk hzero h
  | some b =>
      obtain ⟨hlt, hle, hlt32⟩ := hdst b rfl
      have hlen := h.length_le
      have hnew := cstrbufNew_makes junk hzero (given_of_lt h.short hlen)
      have hnone := hnull rfl
      rw [meantText, meantLength_of_lt h.short] at hnew
      rw [cstrbufDup]
      simp only [h.givenLength_eq]
      rw [meantText]
      generalize meantLength source sourcelen = n at hnew hlen hnone ⊢
      split
      · rename_i hn
        refine ⟨⟨Nat.zero_lt_of_lt hlt, hle, hlt32⟩, ?_, ?_⟩
        · rw [hn, List.take_zero]
          rfl
        · rw [forall_mem_writesTo, List.forall_mem_singleton]
          show 0 + 1 ≤ b.alloc
          omega
      · rename_i hn
        split
        · rename_i hroom
          have htake : ((source.getD []).take n).length = n := by
            cases source with
            | none => exact absurd (hnone rfl) hn
            | some s => exact List.length_take_of_le (hlen s rfl)
          refine ⟨⟨hroom, hle, hlt32⟩, ?_, ?_⟩
          · refine (Mem.load_store_before _ _ (Nat.le_refl n)).trans ?_
            have hself := Mem.load_store_self b.str 0 ((source.getD []).take n)
            rwa [htake] at hself
          · rw [forall_mem_writesTo]
            simp only [List.forall_mem_cons, Span.Within]
            refine ⟨?_, ?_, List.forall_mem_nil _⟩
            · omega
            · omega
        · exact hnew

/-- A new buffer with the beginning of a text, of at least the size asked for. -/
theorem cstrbufNew_take (junk : Mem UInt8) {maxsz n : Nat} {s : List UInt8}
    (hmaxsz : maxsz + 16 < 2 ^ 32) (hn : n ≤ s.length) (hlen : n < 2 ^ 27) :
    Makes (cstrbufNew junk maxsz (some s) n) (s.take n) ∧
      (cstrbufNew junk maxsz (some s) n).1.len = n ∧
      maxsz ≤ (cstrbufNew junk maxsz (some s) n).1.maxsz := by
  have hgiven := @given_of_lt (some s) n hlen fun s' hs => Option.mem_some.mp hs ▸ hn
  have hnew := cstrbufNew_makes junk (.inl hmaxsz) hgiven
  have hsize := (@cstrbufNew_sizes junk maxsz _ _ hgiven).1
  rw [meantText, meantLength_of_lt hlen, Option.getD_some] at hnew
  rw [meantLength_of_lt hlen] at hsize
  refine ⟨hnew, ?_, ?_⟩
  · rw [← Cstrbuf.length_contents, hnew.contents_eq, List.length_take_of_le hn]
  · rw [hsize]
    exact le_newMaxsz hmaxsz hlen

/-- What is copied behind one another, and the NUL behind it. -/
theorem load_spliced (m : Mem UInt8) (i : Nat) (sub back : List UInt8) :
    (((m.store i sub).store (i + sub.length) back).store (i + sub.length + back.length) [0]).load 0
      (i + sub.length + back.length) = m.load 0 i ++ sub ++ back := by
  rw [Mem.load_store_before _ _ (Nat.le_refl _), Mem.load_store_append, Mem.load_store_append]

/-- A slice that lies in a string is replaced. -/
theorem cstrbufSub_makes (junk : Nat → Mem UInt8) {source substr : List UInt8} {i n m : Nat}
    (hslice : i + n ≤ (cstr source).length) (hsub : m ≤ substr.length)
    (hsource : (cstr source).length < 2 ^ 27)
    (hlen : (cstr source).length - n + m < 2 ^ 27) :
    Makes (cstrbufSub junk source i n substr m)
      ((cstr source).take i ++ substr.take m ++ (cstr source).drop (i + n)) := by
  have hstr := cstr_eq_take source
  have hle := cstr_length_le source
  obtain ⟨len, hlendef⟩ : ∃ len, (cstr source).length = len := ⟨_, rfl⟩
  rw [hlendef] at hstr hle hslice hsource hlen
  -- the sizes as they are computed
  have hint := @toInt_of_lt len (by omega)
  have hendlen : ub4OfInt (toInt len - i - n) = len - i - n :=
    ub4OfInt_of_lt (by omega) (by omega)
  have hsize : ub4OfInt (toInt len - n + m + 1) = len - n + m + 1 :=
    ub4OfInt_of_lt (by omega) (by omega)
  have htotal : ub4OfInt (toInt len - n + m) = len - n + m :=
    ub4OfInt_of_lt (by omega) (by omega)
  have hfrontlen : ub4OfInt (i : Int) = i := ub4OfInt_of_lt rfl (by omega)
  have hoff : ((i : Int) + n).toNat = i + n ∧ ((i : Int) + m).toNat = i + m := by omega
  -- the end of the source in a buffer of its own, and what is before the slice
  have hendle : len - i - n ≤ (source.drop (i + n)).length := by
    rw [List.length_drop]
    omega
  obtain ⟨hend, hendcount, -⟩ := @cstrbufNew_take (junk 0) 0 _ _ (by decide) hendle (by omega)
  obtain ⟨hfront, hcount, hroom⟩ := @cstrbufNew_take (junk 1) (len - n + m + 1) i source
    (by omega) (by omega) (by omega)
  simp only [cstrbufSub, hlendef, hendlen, hsize, htotal, hfrontlen, hoff.1, hoff.2,
    Int.toNat_natCast]
  generalize cstrbufNew (junk 0) 0 (some (source.drop (i + n))) (len - i - n) = e
    at hend hendcount ⊢
  generalize cstrbufNew (junk 1) (len - n + m + 1) (some source) i = r at hfront hcount hroom ⊢
  have hend_eq : (cstr source).drop (i + n) = e.1.contents := by
    rw [hend.contents_eq, hstr, List.drop_take, Nat.sub_sub]
  have hfront_eq : (cstr source).take i = r.1.str.load 0 i := by
    have hcontents := hfront.contents_eq
    rw [Cstrbuf.contents, hcount] at hcontents
    rw [hcontents, hstr, List.take_take, Nat.min_eq_left (by omega)]
  have hmaxsz := hfront.sized.maxsz_le
  refine ⟨⟨?_, hmaxsz, hfront.sized.maxsz_lt⟩, ?_, ?_⟩
  · show len - n + m < r.1.maxsz
    omega
  · have hload := load_spliced r.1.str i (substr.take m) e.1.contents
    have htotal_eq : i + m + (len - i - n) = len - n + m := by omega
    rw [List.length_take_of_le hsub, Cstrbuf.length_contents, hendcount, htotal_eq] at hload
    rw [hfront_eq, hend_eq]
    exact hload
  · rw [List.forall_mem_append, List.forall_mem_append, forall_mem_writesTo]
    refine ⟨hend.inside, hfront.inside, ?_⟩
    simp only [List.forall_mem_cons, Span.Within, hendcount]
    refine ⟨?_, ?_, ?_, List.forall_mem_nil _⟩
    · omega
    · omega
    · omega

theorem cstrbufPushBack_makes (junk : Mem UInt8) {dst : Option Cstrbuf} (ch : UInt8)
    (hdst : ∀ b ∈ dst, b.Sized) (hlen : (textOf dst ++ [ch]).length < 2 ^ 27) :
    Makes (cstrbufPushBack junk dst ch) (textOf dst ++ [ch]) := by
  cases dst with
  | none => exact cstrbufCat_makes junk hdst hlen
  | some b =>
      obtain ⟨hlt, hle, hlt32⟩ := hdst b rfl
      have hub4 : toUb4 (b.len + 1) = b.len + 1 := toUb4_of_lt (by omega)
      rw [cstrbufPushBack]
      simp only [hub4]
      split
      · rename_i hroom
        refine ⟨⟨hroom, hle, hlt32⟩, Mem.load_store_append b.str b.len [ch], ?_⟩
        rw [forall_mem_writesTo, List.forall_mem_singleton]
        show b.len + 1 ≤ b.alloc
        omega
      · exact cstrbufCat_makes junk hdst hlen

end Convd
