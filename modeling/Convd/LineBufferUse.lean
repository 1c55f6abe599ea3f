/-
# `Convd.LineBufferUse` — a line buffer that ends

`ConvPosition.linebuf` goes on for ever.  The object behind it does not: it has `linebytes`
bytes, and what a call does once it has left them is nobody's to say.  Here the accesses of a
turn are written down,

    `file_readbytes`   the bytes that came, from the beginning
    `iconv`            reads the chunk, or the five bytes of `CONVD_ERR_INSUFF`
                       writes what it writes, from `linesize` on

and `convdConvFileChecked` is the call that has no result once one of them lies outside.
It is `convdConvFile` where the room for the output ends inside the object (`LineFits`); and
where it does not, a letter is enough to leave it.
-/
import Convd.LineBuffer

namespace Convd

open Loop

variable {σ : Type}

/-! ## The code -/

/-- The parts of the line buffer that a turn reads or writes. -/
def turnAccesses (host : Endian) (e : Env) (ic : Iconv σ) (st : LoopState σ) : List Span :=
  let (_, bytes, _) := fileReadbytes e .linebuf st.cpos.linesize.toNat (st.sys.did .usePos true)
  let (ret, cpos, _) := ucsFileReadNext host e st.cpos st.sys
  let input := cpos.linebuf.load 0 ret.toNat
  let written := convdConvTextWritten ic st.cd input (cpos.linesize * 4).toNat
  ⟨0, bytes.length⟩ ::
    if ret > 0 then [⟨0, ret.toNat⟩, ⟨cpos.linesize.toNat, written.length⟩] else []

/-- None of them that is of any length leaves the object. -/
def turnWithin (host : Endian) (e : Env) (ic : Iconv σ) (st : LoopState σ) : Bool :=
  (turnAccesses host e ic st).all fun a => a.len == 0 || decide (a.Within st.cpos.linebytes)

/-- `convd_conv_file`, whatever its loop is. -/
def convdConvFileAround (loop : LoopState σ → Option FileResult) (e : Env) (cd : σ)
    (inoffset : Nat) (outhead : List UInt8) (linesizemax : UInt32) (s : Sys) :
    Option FileResult :=
  match ucsFileReadOpen e linesizemax s with
  | (.error ret, s) => some ⟨ret, none, s⟩
  | (.ok cpos, s) =>
      match fileWriteNew e s with
      | (false, s) => some ⟨convdNoerror, none, ucsFileReadClose s⟩
      | (true, s) =>
          let (written, s) :=
            if outhead.length ≠ 0 then
              fileWritebytes e (outhead.take (toUb4 outhead.length)) s
            else (0, s)
          if written = -1 then some ⟨convdErrFile, none, closeBoth s⟩
          else
            let cpos := { cpos with offset := toSb8 (cpos.offset + inoffset) }
            let (_, s) := fileSeekCur e (toSb8 inoffset) (s.did .usePos true)
            loop ⟨cpos, cd, 0, s⟩

/-- With the loop it has. -/
theorem convdConvFile_eq_around (host : Endian) (e : Env) (ic : Iconv σ) (fuel : Nat) (cd : σ)
    (inoffset : Nat) (outhead : List UInt8) (linesizemax : UInt32) (s : Sys) :
    convdConvFile host e ic fuel cd inoffset outhead linesizemax s
      = convdConvFileAround (run (convTurn host e ic) fuel) e cd inoffset outhead linesizemax s :=
  rfl

/-- `convd_conv_file`, with no result once it has left the line buffer. -/
def convdConvFileChecked (host : Endian) (e : Env) (ic : Iconv σ) (fuel : Nat) (cd : σ)
    (inoffset : Nat) (outhead : List UInt8) (linesizemax : UInt32) (s : Sys) :
    Option FileResult :=
  convdConvFileAround (runGuarded (turnWithin host e ic) (convTurn host e ic) fuel) e cd inoffset
    outhead linesizemax s

/-! ## Sizes -/

/-- The position object is of the size that `ucs_file_read_open` gives it. -/
structure ConvPosition.Sized (cpos : ConvPosition) (linesizemax : UInt32) : Prop where
  linesize_eq : cpos.linesize = lineSize linesizemax
  linebytes_eq : cpos.linebytes = (5 * lineSize linesizemax).toNat

/-- The room for the output, `4 * linesize` bytes modulo 2 ^ 32, ends below 2 ^ 32.  So it is up
to 858993459, and again from 2 ^ 30 on up to 1717986918, from 2 ^ 31 on up to 2576980377 and
from 3 * 2 ^ 30 on up to 3435973836. -/
def LineFits (linesizemax : UInt32) : Prop :=
  linesizemax = 0xFFFFFFFF ∨ linesizemax.toNat + 4 * linesizemax.toNat % 2 ^ 32 < 2 ^ 32

instance (linesizemax : UInt32) : Decidable (LineFits linesizemax) :=
  inferInstanceAs (Decidable (_ ∨ _))

namespace ConvPosition.Sized

variable {cpos : ConvPosition} {linesizemax : UInt32}

theorem lineFits_iff (h : cpos.Sized linesizemax) :
    LineFits linesizemax ↔ cpos.linesize.toNat + (cpos.linesize * 4).toNat < 2 ^ 32 := by
  rw [LineFits, toNat_mul_four, h.linesize_eq, lineSize]
  split
  · rename_i hmax
    exact iff_of_true (.inl hmax) (by decide)
  · rename_i hne
    rw [or_iff_right hne]

theorem linebytes_mod (h : cpos.Sized linesizemax) :
    cpos.linebytes = (cpos.linesize.toNat + (cpos.linesize * 4).toNat) % 2 ^ 32 := by
  rw [h.linebytes_eq, ← h.linesize_eq, toNat_mul_four, toNat_five_mul, Nat.add_mod_mod]
  omega

/-- The room for the output ends with the object. -/
theorem room_eq (h : cpos.Sized linesizemax) (hfits : LineFits linesizemax) :
    cpos.linesize.toNat + (cpos.linesize * 4).toNat = cpos.linebytes := by
  rw [h.linebytes_mod, Nat.mod_eq_of_lt (h.lineFits_iff.mp hfits)]

/-- The object ends before the room for the output begins, and by no less than the four bytes that
the struct is padded with behind `linebuf`. -/
theorem linebytes_add_le (h : cpos.Sized linesizemax) (hfits : ¬ LineFits linesizemax) :
    cpos.linebytes + 4 ≤ cpos.linesize.toNat := by
  have hbig := mt h.lineFits_iff.mpr hfits
  have hline := cpos.linesize.toNat_lt
  have hroom := (cpos.linesize * 4).toNat_lt
  have hmultiple : (cpos.linesize * 4).toNat % 4 = 0 := by
    rw [toNat_mul_four]
    omega
  rw [h.linebytes_mod]
  omega

end ConvPosition.Sized

/-! ## Inside -/

section Within

variable {host : Endian} {e : Env} {ic : Iconv σ}

theorem length_fileReadbytes_le (e : Env) (dst : Buf) (size : Nat) (s : Sys) :
    (fileReadbytes e dst size s).2.1.length ≤ size := by
  have h := readLoop_outcome e dst s (Nat.le_refl size)
  rw [fileReadbytes]
  generalize readLoop e dst size size s = r at h
  cases h with
  | read t evs _ => exact List.length_take_le _ _
  | fails k t evs _ _ hk => exact (List.length_take_le _ _).trans hk

theorem length_convdConvTextWritten_le (ic : Iconv σ) (cd : σ) (input : List UInt8) (room : Nat) :
    (convdConvTextWritten ic cd input room).length ≤ room := by
  cases hreset : ic.reset cd with
  | none =>
      rw [convdConvTextWritten, hreset]
      exact Nat.zero_le _
  | some cd' =>
      rw [convdConvTextWritten_eq ic input room hreset]
      exact ic.out_le _ _ _

/-- A chunk is no longer than a line, unless it is the five bytes of a line that is too long. -/
theorem readNext_length_le {cpos cpos' : ConvPosition} {s s' : Sys} {ret : Int}
    (hL : cpos.linesize ≠ 0xFFFFFFFF)
    (h : ucsFileReadNext host e cpos s = (ret, cpos', s')) (hpos : ret > 0) :
    ret.toNat ≤ cpos.linesize.toNat ∨ ret = 5 ∧ 0 < cpos.linesize.toNat := by
  have hline : ∀ {bytes : List UInt8},
      nextLine host cpos.bom cpos.linesize.toNat (e.file.drop s.pos) = .line bytes →
      (bytes.length : Int).toNat ≤ cpos.linesize.toNat := fun h =>
    (length_le_take_of_nextLine h).trans (List.length_take_le _ _)
  have hnext := readNext_outcome host e s hL
  rw [h] at hnext
  cases hnext with
  | readFails => exact absurd hpos (by decide)
  | finished => exact absurd hpos (by decide)
  | insuff m t evs _ hins =>
      refine .inr ⟨rfl, Nat.pos_of_ne_zero fun hzero => ?_⟩
      have hnil := take_ne_nil_of_insuff hins
      rw [hzero, List.take_zero] at hnil
      exact hnil rfl
  | line bytes m t evs _ hbytes => exact .inl (hline hbytes)
  | seekFails => exact absurd hpos (by decide)
  | seekLost bytes m t evs _ hbytes => exact .inl (hline hbytes)

/-- However short the lines are, there are five bytes. -/
theorem five_le_linebytes {cpos : ConvPosition} (hpos : 0 < cpos.linesize.toNat)
    (hroom : cpos.linesize.toNat + (cpos.linesize * 4).toNat = cpos.linebytes) :
    5 ≤ cpos.linebytes := by
  rw [toNat_mul_four] at hroom
  rcases Nat.lt_or_ge cpos.linesize.toNat 5 with hshort | hlong
  · rw [Nat.mod_eq_of_lt (by omega)] at hroom
    omega
  · omega

/-- An access is of the line, or of what is converted behind it. -/
theorem turnAccesses_cases {st : LoopState σ} (hL : st.cpos.linesize ≠ 0xFFFFFFFF) {a : Span}
    (ha : a ∈ turnAccesses host e ic st) :
    (∃ n, a = ⟨0, n⟩ ∧ (n ≤ st.cpos.linesize.toNat ∨ n = 5 ∧ 0 < st.cpos.linesize.toNat)) ∨
      ∃ n, a = ⟨st.cpos.linesize.toNat, n⟩ ∧ n ≤ (st.cpos.linesize * 4).toNat := by
  have hread := length_fileReadbytes_le e .linebuf st.cpos.linesize.toNat
    (st.sys.did .usePos true)
  have hsize := (readNext_sizes host e st.cpos st.sys).1
  rcases hnext : ucsFileReadNext host e st.cpos st.sys with ⟨ret, cpos, s⟩
  rw [hnext] at hsize
  have hwritten := length_convdConvTextWritten_le ic st.cd (cpos.linebuf.load 0 ret.toNat)
    (cpos.linesize * 4).toNat
  simp only [turnAccesses, hnext] at ha
  rcases List.mem_cons.mp ha with rfl | ha
  · exact .inl ⟨_, rfl, .inl hread⟩
  · split at ha
    · rename_i hpos
      rw [hsize] at ha hwritten
      rcases List.mem_cons.mp ha with rfl | ha
      · refine .inl ⟨_, rfl, (readNext_length_le hL hnext hpos).imp_right fun ⟨hfive, hline⟩ => ?_⟩
        exact ⟨congrArg Int.toNat hfive, hline⟩
      · exact .inr ⟨_, List.mem_singleton.mp ha, hwritten⟩
    · exact absurd ha List.not_mem_nil

theorem turnWithin_of_fits {st : LoopState σ} {linesizemax : UInt32}
    (hst : st.cpos.Sized linesizemax) (hfits : LineFits linesizemax) :
    turnWithin host e ic st = true := by
  have hroom := hst.room_eq hfits
  rw [turnWithin, List.all_eq_true]
  intro a ha
  rw [Bool.or_eq_true, decide_eq_true_eq]
  refine .inr ?_
  rcases turnAccesses_cases (hst.linesize_eq ▸ lineSize_ne _) ha with
    ⟨n, rfl, hline | ⟨rfl, hpos⟩⟩ | ⟨n, rfl, hwritten⟩
  · show 0 + n ≤ st.cpos.linebytes
    omega
  · exact (Nat.zero_add 5).symm ▸ five_le_linebytes hpos hroom
  · show st.cpos.linesize.toNat + n ≤ st.cpos.linebytes
    omega

/-- Nothing but the loop sees the buffer. -/
theorem convdConvFileAround_congr {loop loop' : LoopState σ → Option FileResult}
    {linesizemax : UInt32}
    (h : ∀ st : LoopState σ, st.cpos.Sized linesizemax → loop st = loop' st) (e : Env) (cd : σ)
    (inoffset : Nat) (outhead : List UInt8) (s : Sys) :
    convdConvFileAround loop e cd inoffset outhead linesizemax s
      = convdConvFileAround loop' e cd inoffset outhead linesizemax s := by
  have hopen := ucsFileReadOpen_outcome e linesizemax s
  rcases hres : ucsFileReadOpen e linesizemax s with ⟨ret | cpos, s₁⟩
  · simp only [convdConvFileAround, hres]
  · rw [hres] at hopen
    obtain ⟨hsize, hbytes⟩ := hopen.sizes
    rcases hcreate : fileWriteNew e s₁ with ⟨_ | _, s₂⟩
    · simp only [convdConvFileAround, hres, hcreate]
    · simp only [convdConvFileAround, hres, hcreate]
      rw [h]
      exact ⟨hsize, hbytes⟩

/-- Where the output fits, checking changes nothing. -/
theorem convdConvFileChecked_eq {linesizemax : UInt32} (hfits : LineFits linesizemax)
    (host : Endian) (e : Env) (ic : Iconv σ) (fuel : Nat) (cd : σ) (inoffset : Nat)
    (outhead : List UInt8) (s : Sys) :
    convdConvFileChecked host e ic fuel cd inoffset outhead linesizemax s
      = convdConvFile host e ic fuel cd inoffset outhead linesizemax s := by
  rw [convdConvFileChecked, convdConvFile_eq_around]
  refine convdConvFileAround_congr (fun st hst => ?_) e cd inoffset outhead s
  refine runGuarded_eq_run (P := fun st : LoopState σ => st.cpos.Sized linesizemax)
    (fun st hst => turnWithin_of_fits hst hfits) (fun st st' hst hagain => ?_) fuel hst
  obtain ⟨hsize, hbytes⟩ := convTurn_sizes hagain
  exact ⟨hsize.trans hst.linesize_eq, hbytes.trans hst.linebytes_eq⟩

end Within

/-! ## Outside -/

/-- Where the output does not fit, a turn that has a byte converted leaves the object. -/
theorem turnWithin_eq_false {host : Endian} {e : Env} {ic : Iconv σ} {st : LoopState σ}
    {linesizemax : UInt32} (hst : st.cpos.Sized linesizemax) (hfits : ¬ LineFits linesizemax)
    {ret : Int} {cpos : ConvPosition} {s : Sys}
    (hnext : ucsFileReadNext host e st.cpos st.sys = (ret, cpos, s)) (hpos : ret > 0)
    (hwritten : convdConvTextWritten ic st.cd (cpos.linebuf.load 0 ret.toNat)
      (cpos.linesize * 4).toNat ≠ []) : turnWithin host e ic st = false := by
  have hend := hst.linebytes_add_le hfits
  have hsize : cpos.linesize = st.cpos.linesize := by
    have := (readNext_sizes host e st.cpos st.sys).1
    rwa [hnext] at this
  have hlen := List.length_pos_of_ne_nil hwritten
  rw [turnWithin, List.all_eq_false]
  refine ⟨⟨cpos.linesize.toNat, (convdConvTextWritten ic st.cd (cpos.linebuf.load 0 ret.toNat)
    (cpos.linesize * 4).toNat).length⟩, ?_, ?_⟩
  · simp only [turnAccesses, hnext, if_pos hpos]
    exact List.mem_cons_of_mem _ (List.mem_cons_of_mem _ List.mem_cons_self)
  · rw [Bool.or_eq_true, beq_iff_eq, decide_eq_true_eq]
    rintro (hzero | hwithin)
    · exact absurd hzero (Nat.ne_of_gt hlen)
    · simp only [Span.Within, hsize] at hwithin
      omega

/-- The chunk of the first turn of a file of one letter. -/
theorem readNext_letter {cpos cpos' : ConvPosition} {s s' : Sys} {ret : Int}
    (hlong : 1 < cpos.linesize.toNat) (hL : cpos.linesize ≠ 0xFFFFFFFF)
    (hbom : cpos.bom = .noneBom) (hoffset : cpos.offset = 0) (hpos : s.pos = 0)
    (h : ucsFileReadNext .little letterEnv cpos s = (ret, cpos', s')) :
    ret = 1 ∧ cpos'.linebuf.load 0 1 = [97] := by
  have hahead : letterEnv.file.drop s.pos = [97] := by
    rw [hpos]
    rfl
  have hline : nextLine .little cpos.bom cpos.linesize.toNat (letterEnv.file.drop s.pos)
      = .line [97] := by
    have hshort : ([97] : List UInt8).length < cpos.linesize.toNat := hlong
    obtain ⟨n, hcut⟩ := @nextLine_text_cut .little .noneBom _ rfl 97 [] hshort
    rw [hahead, hbom, hcut, List.take_nil]
  have hstop : cpos.stop [97] = 1 := by
    rw [ConvPosition.stop, hoffset]
    rfl
  have hnext := readNext_outcome .little letterEnv s hL
  rw [h] at hnext
  cases hnext with
  | readFails m k t evs _ hfault => exact nomatch hfault.choose_spec
  | finished m t evs _ hfin => exact nomatch hline.symm.trans hfin
  | insuff m t evs _ hins => exact nomatch hline.symm.trans hins
  | line bytes m t evs _ hbytes hload _ =>
      obtain rfl := Line.line.inj (hline.symm.trans hbytes)
      exact ⟨rfl, hload⟩
  | seekFails bytes m k t evs _ hbytes _ hfault =>
      obtain rfl := Line.line.inj (hline.symm.trans hbytes)
      rw [hstop] at hfault
      rcases hfault with hfault | hneg
      · exact nomatch hfault.choose_spec
      · exact absurd hneg (by decide)
  | seekLost bytes m t evs _ hbytes _ hlost =>
      obtain rfl := Line.line.inj (hline.symm.trans hbytes)
      rw [hstop] at hlost
      exact absurd hlost (by decide)

/-- To copy it, a call that has no room for it writes behind the object. -/
theorem convdConvFileChecked_letter {linesizemax : UInt32} (hfits : ¬ LineFits linesizemax)
    (fuel : Nat) : convdConvFileChecked .little letterEnv (.ofFun some) fuel () 0 [] linesizemax
      Sys.init = none := by
  obtain ⟨s, hpos, hcall⟩ : ∃ s : Sys, s.pos = 0 ∧
      ∀ loop : LoopState Unit → Option FileResult,
        convdConvFileAround loop letterEnv () 0 [] linesizemax Sys.init
          = loop ⟨⟨.noneBom, 0, lineSize linesizemax, (5 * lineSize linesizemax).toNat,
              letterEnv.heap⟩, (), 0, s⟩ := ⟨_, rfl, fun _ => rfl⟩
  rw [convdConvFileChecked, hcall]
  apply runGuarded_none
  obtain ⟨cpos, hcpos⟩ : ∃ cpos : ConvPosition, cpos = ⟨.noneBom, 0, lineSize linesizemax,
      (5 * lineSize linesizemax).toNat, letterEnv.heap⟩ := ⟨_, rfl⟩
  have hsized : cpos.Sized linesizemax := by
    rw [hcpos]
    exact ⟨rfl, rfl⟩
  obtain ⟨hlong, hroom⟩ : 1 < cpos.linesize.toNat ∧ 1 ≤ (cpos.linesize * 4).toNat := by
    have hlt := cpos.linesize.toNat_lt
    have hbig := mt hsized.lineFits_iff.mpr hfits
    rw [toNat_mul_four] at *
    omega
  rw [← hcpos]
  rcases hnext : ucsFileReadNext .little letterEnv cpos s with ⟨ret, cpos', s'⟩
  obtain ⟨rfl, hload⟩ := readNext_letter hlong (hsized.linesize_eq ▸ lineSize_ne _)
    (by rw [hcpos]) (by rw [hcpos]) hpos hnext
  have hsize : cpos'.linesize = cpos.linesize := by
    have := (readNext_sizes .little letterEnv cpos s).1
    rwa [hnext] at this
  refine turnWithin_eq_false hsized hfits hnext (by decide) ?_
  have htext : (Iconv.ofFun some).text () [97] (cpos.linesize * 4).toNat = some [97] := by
    have hfit : ([97] : List UInt8).length ≤ (cpos.linesize * 4).toNat := hroom
    rw [Iconv.implements_ofFun, Option.filter_some, if_pos (decide_eq_true hfit)]
  show convdConvTextWritten (.ofFun some) () (cpos'.linebuf.load 0 1) (cpos'.linesize * 4).toNat
    ≠ []
  rw [hload, hsize, convdConvTextWritten_of_text htext]
  exact List.cons_ne_nil _ _

end Convd
