/-
# `Convd.ConvFileText` — `convd_conv_file` on a text

A text without a mark, or with a UTF-8 mark, is read run by run: a run is a longest
stretch of bytes with one top bit.  Behind the mark and `inoffset` bytes lies the
*region*.  When its runs are shorter than the line buffer, the region is converted as a whole,
unless the converter refuses it: to cut it, read it again and convert it in pieces
changes nothing for a converter that works run by run.
-/
import Convd.ConvStart

namespace Convd

open Loop

variable {σ : Type}

/-! ## Short runs -/

section Converts

variable {host : Endian} {e : Env} {ic : Iconv σ} {cd : σ} {inoffset : Nat}
  {outhead : List UInt8} {linesizemax : UInt32} {bom : UcsBom}
  {conv : List UInt8 → Option (List UInt8)}

/-- A call converts `region` and puts it behind `head`, or reports that it is refused. -/
def ConvertsRegion (host : Endian) (e : Env) (ic : Iconv σ) (cd : σ) (inoffset : Nat)
    (outhead : List UInt8) (linesizemax : UInt32) (conv : List UInt8 → Option (List UInt8))
    (region head : List UInt8) : Prop :=
  ∃ r, ConvFileReturns host e ic cd inoffset outhead linesizemax r ∧
    (∀ text, conv region = some text → r.ret = convdNoerror ∧ r.sys.out = head ++ text) ∧
    (conv region = none → r.ret = convdErrIconv)

theorem Implements.converts {L : UInt32} {input out : List UInt8} (hic : Implements ic conv)
    (h : Converts ic L input out) : conv input = some out := by
  obtain ⟨cd, htext⟩ := h
  rw [hic] at htext
  exact (Option.filter_eq_some_iff.mp htext).1

theorem Implements.refuses {L : UInt32} {input : List UInt8} (hic : Implements ic conv)
    (hroom : ∀ out ∈ conv input, out.length ≤ (L * 4).toNat) (h : Refuses ic L input) :
    conv input = none := by
  obtain ⟨cd, htext⟩ := h
  rw [hic] at htext
  rcases hconv : conv input with _ | out
  · rfl
  · rw [hconv] at htext
    have := Option.filter_eq_none_iff.mp htext out rfl
    exact absurd (decide_eq_true (hroom out hconv)) this

/-- A call on a text with short runs converts the region, and puts it behind as much of the
head as its length, taken for a `ub4`, says. -/
theorem convFile_converts_from {s : Sys} (h₀ : s.Fresh) (hfiles : e.Faultless)
    (hbom : StartsWithBom e.file bom) (htext : bom = .noneBom ∨ bom = .utf8Bom)
    (hin : bomLength bom + inoffset ≤ e.file.length)
    (hmax : 5 * (lineSize linesizemax).toNat < 2 ^ 32)
    (hruns : ∀ r ∈ List.runs topBit (e.file.drop (bomLength bom + inoffset)),
      r.length < (lineSize linesizemax).toNat)
    (hic : Implements ic conv) (hconv : List.RunWise topBit conv)
    (hroom : ∀ r ∈ List.runs topBit (e.file.drop (bomLength bom + inoffset)),
      ∀ out ∈ conv r, out.length ≤ 4 * (lineSize linesizemax).toNat) :
    ∃ r, ConvFileReturnsFrom host e ic cd inoffset outhead linesizemax s r ∧
      (∀ text, conv (e.file.drop (bomLength bom + inoffset)) = some text → r.ret = convdNoerror ∧
        r.sys.out = outhead.take (toUb4 outhead.length) ++ text) ∧
      (conv (e.file.drop (bomLength bom + inoffset)) = none → r.ret = convdErrIconv) := by
  have hlines := @lines_text host bom _ (isText_of_bom htext) (by omega) _ hruns
  obtain ⟨st, r, hst, hret, hrun⟩ := hfiles.runsFrom ic cd outhead h₀ hbom (ne_ask_of_bom htext)
    (Nat.lt_of_le_of_lt hin e.file_lt) hlines
  generalize hregion : e.file.drop (bomLength bom + inoffset) = region at *
  refine ⟨r, hret, ?_⟩
  cases hrun with
  | done outs s' evs hall hlog hok hhanded hout =>
      have hsome := hconv.eq_some (hall.imp fun _ _ h => hic.converts h)
      rw [hsome]
      refine ⟨fun text htext => ⟨rfl, ?_⟩, fun hnone => nomatch hnone⟩
      rw [← Option.some.inj htext, ← hst.out_eq]
      exact hout
  | refused before after outs input s' evs hsplit hall href hlog hfails hhanded hout =>
      have hmem : input ∈ List.runs topBit region := by simp [hsplit]
      have hfit := hroom input hmem
      rw [← toNat_room hmax] at hfit
      rw [hconv.eq_none hmem (hic.refuses hfit href)]
      exact ⟨(fun _ hsome => nomatch hsome), fun _ => rfl⟩
  | fileFails s' evs hfault hlog hfails hhanded =>
      exact absurd hfault hfiles.no_fault

theorem convdConvFile_converts (hfiles : e.Faultless) (hbom : StartsWithBom e.file bom)
    (htext : bom = .noneBom ∨ bom = .utf8Bom) (hin : bomLength bom + inoffset ≤ e.file.length)
    (hmax : 5 * linesizemax.toNat < 2 ^ 32)
    (hruns : ∀ r ∈ List.runs topBit (e.file.drop (bomLength bom + inoffset)),
      r.length < linesizemax.toNat)
    (hic : Implements ic conv) (hconv : List.RunWise topBit conv)
    (hroom : ∀ r ∈ List.runs topBit (e.file.drop (bomLength bom + inoffset)),
      ∀ out ∈ conv r, out.length ≤ 4 * linesizemax.toNat) :
    ConvertsRegion host e ic cd inoffset outhead linesizemax conv
      (e.file.drop (bomLength bom + inoffset)) (outhead.take (toUb4 outhead.length)) := by
  have hsize : lineSize linesizemax = linesizemax := lineSize_of_ne (ne_of_fits hmax)
  rw [← hsize] at hmax hruns hroom
  exact convFile_converts_from Sys.fresh_init hfiles hbom htext hin hmax hruns hic hconv hroom

/-- The head a call puts first is the head it was given only below 4 GiB. -/
theorem ConvertsRegion.head_iff {region : List UInt8}
    (h : ConvertsRegion host e ic cd inoffset outhead linesizemax conv region
      (outhead.take (toUb4 outhead.length))) :
    ConvertsRegion host e ic cd inoffset outhead linesizemax conv region outhead ↔
      outhead.length < 2 ^ 32 ∨ conv region = none := by
  constructor
  · intro h'
    obtain ⟨r, hr, hsome, -⟩ := h
    obtain ⟨r', hr', hsome', -⟩ := h'
    obtain rfl := hr.unique hr'
    rcases hconv : conv region with _ | text
    · exact .inr rfl
    · have hout := (hsome text hconv).2.symm.trans (hsome' text hconv).2
      have hlen := congrArg List.length (List.append_cancel_right hout)
      have hmod := Nat.mod_lt outhead.length (Nat.two_pow_pos 32)
      rw [List.length_take, toUb4] at hlen
      exact .inl (by omega)
  · rintro (hlen | hnone)
    · rwa [take_toUb4 hlen] at h
    · obtain ⟨r, hr, -, hrefused⟩ := h
      exact ⟨r, hr, (fun _ hsome => nomatch hnone.symm.trans hsome), hrefused⟩

/-- A call on a text with short runs converts the region and puts it behind the head if
and only if the head has less than 4 GiB, or the region is refused anyway. -/
theorem convdConvFile_converts_iff (hfiles : e.Faultless) (hbom : StartsWithBom e.file bom)
    (htext : bom = .noneBom ∨ bom = .utf8Bom) (hin : bomLength bom + inoffset ≤ e.file.length)
    (hmax : 5 * linesizemax.toNat < 2 ^ 32)
    (hruns : ∀ r ∈ List.runs topBit (e.file.drop (bomLength bom + inoffset)),
      r.length < linesizemax.toNat)
    (hic : Implements ic conv) (hconv : List.RunWise topBit conv)
    (hroom : ∀ r ∈ List.runs topBit (e.file.drop (bomLength bom + inoffset)),
      ∀ out ∈ conv r, out.length ≤ 4 * linesizemax.toNat) :
    ConvertsRegion host e ic cd inoffset outhead linesizemax conv
        (e.file.drop (bomLength bom + inoffset)) outhead ↔
      outhead.length < 2 ^ 32 ∨ conv (e.file.drop (bomLength bom + inoffset)) = none :=
  (convdConvFile_converts hfiles hbom htext hin hmax hruns hic hconv hroom).head_iff

end Converts

/-- Latin-1 to UTF-8, byte by byte. -/
def latin1ToUtf8 (b : UInt8) : List UInt8 :=
  if b < 0x80 then [b] else [(0xC0 : UInt8) ||| (b >>> 6), (0x80 : UInt8) ||| (b &&& 0x3F)]

theorem convdConvFile_converts_iff_latin1 :
    ConvertsRegion .little (.bytewise (ascii "ab" ++ [0xE9, 0x63]) (by decide) fun _ => false)
        (.ofFun fun text => some (text.flatMap latin1ToUtf8)) () 1 (ascii "> ") 8
        (fun text => some (text.flatMap latin1ToUtf8)) ((ascii "ab" ++ [0xE9, 0x63]).drop 1)
        (ascii "> ") ↔
      (ascii "> ").length < 2 ^ 32 ∨
        (some (((ascii "ab" ++ [0xE9, 0x63]).drop 1).flatMap latin1ToUtf8) = none) :=
  @convdConvFile_converts_iff Unit .little
    (.bytewise (ascii "ab" ++ [0xE9, 0x63]) (by decide) fun _ => false)
    (.ofFun fun text => some (text.flatMap latin1ToUtf8)) () 1 (ascii "> ") 8 .noneBom _
    (fun _ => rfl) (by decide) (.inl rfl) (by decide) (by decide) (by decide)
    (Iconv.implements_ofFun _) (List.runWise_flatMap _) (by decide)

/-- A head of 4 GiB, on an empty file: its length is taken for 0 and nothing of it written. -/
theorem convdConvFile_head_lost :
    ¬ ∀ (host : Endian) (e : Env) (ic : Iconv Unit) (inoffset : Nat) (outhead : List UInt8)
      (linesizemax : UInt32) (bom : UcsBom) (conv : List UInt8 → Option (List UInt8)),
      e.Faultless → StartsWithBom e.file bom → bom = .noneBom ∨ bom = .utf8Bom →
      bomLength bom + inoffset ≤ e.file.length → 5 * linesizemax.toNat < 2 ^ 32 →
      (∀ r ∈ List.runs topBit (e.file.drop (bomLength bom + inoffset)),
        r.length < linesizemax.toNat) →
      Implements ic conv → List.RunWise topBit conv →
      (∀ r ∈ List.runs topBit (e.file.drop (bomLength bom + inoffset)),
        ∀ out ∈ conv r, out.length ≤ 4 * linesizemax.toNat) →
      ConvertsRegion host e ic () inoffset outhead linesizemax conv
        (e.file.drop (bomLength bom + inoffset)) outhead := by
  intro hconverts
  have hcall := @convdConvFile_converts Unit .little (.bytewise [] (by decide) fun _ => false)
    (.ofFun fun text => some (text.flatMap latin1ToUtf8)) () 0 (List.replicate (2 ^ 32) 0) 8
    .noneBom _ (fun _ => rfl) (by decide) (.inl rfl) (by decide) (by decide) (by decide)
    (Iconv.implements_ofFun _) (List.runWise_flatMap _) (by decide)
  have hhead := hcall.head_iff.mp (hconverts _ _ _ _ _ _ .noneBom _ (fun _ => rfl) (by decide)
    (.inl rfl) (by decide) (by decide) (by decide) (Iconv.implements_ofFun _)
    (List.runWise_flatMap _) (by decide))
  rcases hhead with hlen | hnone
  · rw [List.length_replicate] at hlen
    exact Nat.lt_irrefl _ hlen
  · cases hnone

end Convd
