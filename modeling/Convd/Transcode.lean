/-
# `Convd.Transcode` — files of characters, from one encoding to another

A *code* says how characters are written (`Convd.Lib.Code`), and a converter from `A` to `B` is
one that transcodes: it knows which bytes are which character, which `convd_conv_file` does not.
In UTF-8 and GB2312 the bytes of a character have one top bit, so no run divides one, and then

    what a call leaves in the output file    the first characters of the input, in `B`
    when it succeeds                         all of them
    back from `B` to `A`                     the file it began with, less its mark

The converter needs to convert nothing longer than a line for that, and the output buffer holds
what becomes of a line: a character of `B` has four bytes at most.
-/
import Convd.ConvFileChars
import Convd.ConvFileWritten
import Convd.Lib.Code

namespace Convd

open Code List

variable {α σ : Type}

/-! ## Encodings -/

/-- What the code writes are characters of the encoding. -/
def Encoding.Writes (enc : Encoding) (A : Code α UInt8) : Prop :=
  ∀ a, ∀ w ∈ A.word a, enc.isChar w = true

/-- The encodings whose long characters have no byte below 80. -/
def Encoding.isUnmixed : Encoding → Bool
  | .utf8 | .gb2312 => true
  | _ => false

/-- A character has one to four bytes. -/
theorem Encoding.isChar_length {enc : Encoding} {c : List UInt8} (h : enc.isChar c = true) :
    0 < c.length ∧ c.length ≤ 4 := by
  rcases c with _ | ⟨a, _ | ⟨b, _ | ⟨c, _ | ⟨d, _ | ⟨x, cs⟩⟩⟩⟩⟩
  · cases enc <;> cases h
  · simp
  · simp
  · simp
  · simp
  · cases enc <;> cases h

theorem Encoding.Writes.uniform {enc : Encoding} {A : Code α UInt8} (h : enc.Writes A)
    (hunmixed : enc.isUnmixed = true) : A.Uniform topBit where
  ne_nil a w hw := length_pos_iff.mp (enc.isChar_length (h a w hw)).1
  key_eq a w hw b hb c hc := by
    have hbytes : (∃ a, w = [a] ∧ a.toNat < 0x80) ∨ ∀ b ∈ w, 0x80 ≤ b.toNat ∧ b.toNat < 0xFF := by
      have hchar := h a w hw
      cases enc with
      | utf8 => exact utf8Char_bytes hchar
      | gb2312 => exact gb2312Char_bytes hchar
      | gbk | big5 | gb18030 | utf16 order => cases hunmixed
    rcases hbytes with ⟨x, rfl, -⟩ | hall
    · rw [mem_singleton.mp hb, mem_singleton.mp hc]
    · rw [topBit_of_le (hall b hb).1, topBit_of_le (hall c hc).1]

/-- What becomes of a run fits the output buffer. -/
theorem Encoding.Writes.room {enc enc' : Encoding} {A B : Code α UInt8} {L : Nat}
    {conv : List UInt8 → Option (List UInt8)} (hA : enc.Writes A) (hB : enc'.Writes B)
    (hconv : Transcodes A B conv) {run : List UInt8} (hlen : run.length < L) :
    ∀ out ∈ conv run, out.length ≤ 4 * L := by
  intro out hout
  obtain ⟨letters, hrun, hwrites⟩ := (hconv run out).mp hout
  have hle := Code.Writes.length_le
    (fun a w hw => length_pos_iff.mp (enc.isChar_length (hA a w hw)).1)
    (fun a w hw => (enc'.isChar_length (hB a w hw)).2) hrun hwrites
  omega

/-- The letter a, and an é in two bytes. -/
def eacuteCode (p q : UInt8) : Code Bool UInt8 :=
  ⟨fun eacute => some (if eacute then [p, q] else [0x61])⟩

/-- Rewrites every é, and refuses whatever is neither this nor an a. -/
def eacuteConv (p q p' q' : UInt8) : List UInt8 → Option (List UInt8)
  | [] => some []
  | [b] => if b = 0x61 then some [0x61] else none
  | b :: c :: text =>
      if b = 0x61 then (eacuteConv p q p' q' (c :: text)).map (0x61 :: ·)
      else if b = p ∧ c = q then (eacuteConv p q p' q' text).map fun out => p' :: q' :: out
      else none

theorem eacuteConv_a (p q p' q' : UInt8) (text : List UInt8) :
    eacuteConv p q p' q' (0x61 :: text) = (eacuteConv p q p' q' text).map (0x61 :: ·) := by
  cases text <;> simp [eacuteConv]

theorem eacuteConv_transcodes {p q p' q' : UInt8} (hp : p ≠ 0x61) :
    Transcodes (eacuteCode p q) (eacuteCode p' q') (eacuteConv p q p' q') := by
  intro text out
  constructor
  · intro h
    fun_induction eacuteConv p q p' q' text generalizing out with
    | case1 =>
        cases h
        exact ⟨[], .nil, .nil⟩
    | case2 =>
        cases h
        exact ⟨[false], .cons (w := [0x61]) rfl .nil, .cons (w := [0x61]) rfl .nil⟩
    | case3 => cases h
    | case4 c text ih =>
        obtain ⟨out, hout, rfl⟩ := Option.map_eq_some_iff.mp h
        obtain ⟨letters, htext, hwrites⟩ := ih _ hout
        exact ⟨false :: letters, .cons (w := [0x61]) rfl htext, .cons (w := [0x61]) rfl hwrites⟩
    | case5 b c text hb hpq ih =>
        obtain ⟨out, hout, rfl⟩ := Option.map_eq_some_iff.mp h
        obtain ⟨letters, htext, hwrites⟩ := ih _ hout
        obtain ⟨rfl, rfl⟩ := hpq
        exact ⟨true :: letters, .cons (w := [b, c]) rfl htext, .cons (w := [p', q']) rfl hwrites⟩
    | case6 => cases h
  · rintro ⟨letters, htext, hwrites⟩
    induction htext generalizing out with
    | nil =>
        cases hwrites
        rfl
    | @cons letter letters w text hw _ ih =>
        rcases hwrites with _ | ⟨hw', hrest⟩
        cases letter with
        | false =>
            cases hw
            cases hw'
            simp [eacuteConv_a, ih _ hrest]
        | true =>
            cases hw
            cases hw'
            simp [eacuteConv, hp, ih _ hrest]

/-- é in UTF-8 and in GB2312. -/
theorem utf8_writes_eacute : Encoding.utf8.Writes (eacuteCode 0xC3 0xA9) := by
  rintro (_ | _) w ⟨⟩ <;> decide

theorem gb2312_writes_eacute : Encoding.gb2312.Writes (eacuteCode 0xA8 0xA6) := by
  rintro (_ | _) w ⟨⟩ <;> decide

/-! ## One call -/

section Call

variable {host : Endian} {e : Env} {ic : Iconv σ} {cd : σ} {inoffset : Nat}
  {outhead : List UInt8} {linesizemax : UInt32} {bom : UcsBom} {r : FileResult}
  {enc enc' : Encoding} {A B : Code α UInt8} {conv : List UInt8 → Option (List UInt8)}

/-- Runs in front that were transcoded, and those behind: letters, and pieces of letters. -/
theorem WrittenRuns.letters {letters : List α} {region out₀ : List UInt8}
    {before after outs : List (List UInt8)}
    (h : WrittenRuns conv region out₀ before after outs r) (hA : A.Uniform topBit)
    (hconv : Transcodes A B conv) (hletters : A.Writes letters region) :
    ∃ done pieces, A.Writes (done ++ pieces.flatten) region ∧ B.Writes done outs.flatten ∧
      Forall₂ A.Writes pieces after ∧
      (r.ret = convdNoerror → pieces = [] ∧ r.sys.out = out₀ ++ outs.flatten) := by
  obtain ⟨pieces, rfl, hpieces⟩ := hletters.runs hA
  rw [h.runs_eq] at hpieces
  have hafter := forall₂_drop_append _ _ _ hpieces
  obtain ⟨done, hdone, hB⟩ := hconv.pieces (forall₂_of_mapM_eq_some h.converts)
  refine ⟨done, _, ?_, hB, hafter, fun hret => ?_⟩
  · rw [← flatten_runs topBit region, h.runs_eq, flatten_append]
    exact hdone.append (.flatten hafter)
  · obtain ⟨rfl, hout⟩ := h.of_noerror hret
    exact ⟨forall₂_nil_right_iff.mp hafter, hout⟩

/-- However operations fail, as long as none does whose result is dropped: the output file has,
behind the head, characters of the input in the other code, or a prefix of that; all characters
if the call succeeds, and if the converter refused a line, whole ones up to this line, in which
there is a character that the other code cannot write. -/
theorem convdConvFile_transcodes (hA : enc.Writes A) (hunmixed : enc.isUnmixed = true)
    (hB : enc'.Writes B) (hic : Implements ic conv) (hconv : Transcodes A B conv)
    (h : ConvFileReturns host e ic cd inoffset outhead linesizemax r)
    (hdropped : DroppedOk r.sys.log) (hbom : StartsWithBom e.file bom)
    (htext : bom = .noneBom ∨ bom = .utf8Bom) (hin : bomLength bom + inoffset ≤ e.file.length)
    (hmax : 5 * (lineSize linesizemax).toNat < 2 ^ 32)
    (hruns : ∀ r ∈ runs topBit (e.file.drop (bomLength bom + inoffset)),
      r.length < (lineSize linesizemax).toNat)
    (hletters : ∃ letters, A.Writes letters (e.file.drop (bomLength bom + inoffset))) :
    ∃ done rest out, A.Writes (done ++ rest) (e.file.drop (bomLength bom + inoffset)) ∧
      B.Writes done out ∧ r.sys.out <+: outhead.take (toUb4 outhead.length) ++ out ∧
      (r.ret = convdNoerror →
        rest = [] ∧ r.sys.out = outhead.take (toUb4 outhead.length) ++ out) ∧
      (r.ret = convdErrIconv →
        r.sys.out = outhead.take (toUb4 outhead.length) ++ out ∧ ¬ ∃ out, B.Writes rest out) := by
  have huniform := hA.uniform hunmixed
  obtain ⟨letters, hletters⟩ := hletters
  obtain ⟨before, after, outs, hwritten⟩ :=
    h.writtenRuns hdropped hbom htext hin hmax hruns hic
      fun run hrun => hA.room hB hconv (hruns run hrun)
  obtain ⟨done, pieces, hall, hdone, hafter, hnoerror⟩ := hwritten.letters huniform hconv hletters
  refine ⟨done, pieces.flatten, outs.flatten, hall, hdone, hwritten.out_prefix, fun hret => ?_,
    fun hret => ?_⟩
  · obtain ⟨rfl, hout⟩ := hnoerror hret
    exact ⟨rfl, hout⟩
  · obtain ⟨hout, run, later, rfl, hnone⟩ := hwritten.of_iconv hret
    refine ⟨hout, fun ⟨out, hout⟩ => ?_⟩
    -- the refused line has letters, and what writes all that is left writes them
    rcases hafter with _ | ⟨hpiece, -⟩
    obtain ⟨t, -, ht, -⟩ := Code.Writes.split hout
    exact nomatch hnone.symm.trans ((hconv run t).mpr ⟨_, hpiece, ht⟩)

/-- A write fails between the two bytes of an é. -/
theorem convdConvFile_transcodes_half :
    ∃ r, ConvFileReturns .little
        (.bytewise [0x61, 0xC3, 0xA9, 0x61] (by decide) fun t => t == 32)
        (.ofFun (eacuteConv 0xC3 0xA9 0xA8 0xA6)) () 0 [] 8 r ∧ r.sys.out = [0x61, 0xA8] ∧
      ∃ done rest out,
        (eacuteCode 0xC3 0xA9).Writes (done ++ rest) ([0x61, 0xC3, 0xA9, 0x61].drop 0) ∧
        (eacuteCode 0xA8 0xA6).Writes done out ∧ r.sys.out <+: [] ++ out ∧
        (r.ret = convdNoerror → rest = [] ∧ r.sys.out = [] ++ out) ∧
        (r.ret = convdErrIconv → r.sys.out = [] ++ out ∧
          ¬ ∃ out, (eacuteCode 0xA8 0xA6).Writes rest out) := by
  have hcall : (convdConvFile .little
      (.bytewise [0x61, 0xC3, 0xA9, 0x61] (by decide) fun t => t == 32)
      (.ofFun (eacuteConv 0xC3 0xA9 0xA8 0xA6)) 8 () 0 [] 8 Sys.init).any
        (fun r => r.sys.out == [0x61, 0xA8] && decide (DroppedOk r.sys.log)) = true := by
    decide +kernel
  obtain ⟨r, hr, hand⟩ := (Option.any_eq_true _ _).mp hcall
  simp only [Bool.and_eq_true, beq_iff_eq, decide_eq_true_eq] at hand
  obtain ⟨hout, hdropped⟩ := hand
  have hconv := @eacuteConv_transcodes 0xC3 0xA9 0xA8 0xA6 (by decide)
  have hletters : (eacuteCode 0xC3 0xA9).Writes [false, true, false] [0x61, 0xC3, 0xA9, 0x61] :=
    .cons (w := [0x61]) rfl (.cons (w := [0xC3, 0xA9]) rfl (.cons (w := [0x61]) rfl .nil))
  exact ⟨r, ⟨8, hr⟩, hout, @convdConvFile_transcodes _ _ _ _ _ _ _ _ _ .noneBom r _ _ _ _ _
    utf8_writes_eacute rfl gb2312_writes_eacute (Iconv.implements_ofFun _) hconv ⟨8, hr⟩ hdropped
    (by decide) (.inl rfl) (by decide) (by decide) (by decide) ⟨_, hletters⟩⟩

end Call

/-! ## There and back -/

section Round

variable {host : Endian} {e e' : Env} {ic ic' : Iconv σ} {cd cd' : σ} {linesizemax : UInt32}
  {bom : UcsBom} {enc enc' : Encoding} {A B : Code α UInt8}
  {conv back : List UInt8 → Option (List UInt8)}

theorem bomLength_le_of_starts {file : List UInt8} (hbom : StartsWithBom file bom)
    (htext : bom = .noneBom ∨ bom = .utf8Bom) : bomLength bom ≤ file.length := by
  rcases htext with rfl | rfl
  · exact Nat.zero_le _
  · have hmark : bomBytes .utf8Bom <+: file := hbom
    exact length_bomBytes .utf8Bom ▸ hmark.length_le

/-- A call on a file of characters, when no operation fails. -/
theorem convFile_transcodes_whole (hA : enc.Writes A) (hunmixed : enc.isUnmixed = true)
    (hB : enc'.Writes B) (hic : Implements ic conv) (hconv : Transcodes A B conv)
    (hfiles : e.Faultless) (hbom : StartsWithBom e.file bom)
    (htext : bom = .noneBom ∨ bom = .utf8Bom) (hmax : 5 * linesizemax.toNat < 2 ^ 32)
    (hruns : ∀ r ∈ runs topBit (e.file.drop (bomLength bom)), r.length < linesizemax.toNat)
    {out : List UInt8} (hout : conv (e.file.drop (bomLength bom)) = some out) :
    ∃ r, ConvFileReturns host e ic cd 0 [] linesizemax r ∧ r.ret = convdNoerror ∧
      r.sys.out = out := by
  obtain ⟨r, hret, hsome, -⟩ := @convdConvFile_converts σ host e ic cd 0 [] linesizemax bom conv
    hfiles hbom htext (bomLength_le_of_starts hbom htext) hmax hruns hic
    (hconv.runWise (hA.uniform hunmixed)) fun run hrun => hA.room hB hconv (hruns run hrun)
  exact ⟨r, hret, hsome out hout⟩

/-- Converted from one of UTF-8 and GB2312 to the other (or to itself) and back, with lines
longer than the runs of both files, a file is restored up to its mark. -/
theorem convdConvFile_round (hA : enc.Writes A) (hB : enc'.Writes B)
    (hunmixed : enc.isUnmixed = true) (hunmixed' : enc'.isUnmixed = true)
    (hic : Implements ic conv) (hconv : Transcodes A B conv) (hic' : Implements ic' back)
    (hback : Transcodes B A back) (hfiles : e.Faultless) (hfiles' : e'.Faultless)
    (hbom : StartsWithBom e.file bom) (htext : bom = .noneBom ∨ bom = .utf8Bom)
    (hmax : 5 * linesizemax.toNat < 2 ^ 32)
    (hruns : ∀ r ∈ runs topBit (e.file.drop (bomLength bom)), r.length < linesizemax.toNat)
    {letters : List α} (hletters : A.Writes letters (e.file.drop (bomLength bom)))
    (hfile' : B.Writes letters e'.file) (hbom' : StartsWithBom e'.file .noneBom)
    (hruns' : ∀ r ∈ runs topBit e'.file, r.length < linesizemax.toNat) :
    (∃ r, ConvFileReturns host e ic cd 0 [] linesizemax r ∧ r.ret = convdNoerror ∧
      r.sys.out = e'.file) ∧
    ∃ r, ConvFileReturns host e' ic' cd' 0 [] linesizemax r ∧ r.ret = convdNoerror ∧
      r.sys.out = e.file.drop (bomLength bom) := by
  have hout : conv (e.file.drop (bomLength bom)) = some e'.file :=
    (hconv _ _).mpr ⟨letters, hletters, hfile'⟩
  refine ⟨convFile_transcodes_whole hA hunmixed hB hic hconv hfiles hbom htext hmax hruns hout, ?_⟩
  exact convFile_transcodes_whole hB hunmixed' hA hic' hback hfiles' hbom' (.inl rfl) hmax hruns'
    (hconv.round hback hout)

end Round

/-- The word aé, to GB2312 and back. -/
theorem convdConvFile_round_eacute :
    (∃ r, ConvFileReturns .little (.bytewise [0xEF, 0xBB, 0xBF, 0x61, 0xC3, 0xA9] (by decide)
        fun _ => false) (.ofFun (eacuteConv 0xC3 0xA9 0xA8 0xA6)) () 0 [] 8 r ∧
      r.ret = convdNoerror ∧ r.sys.out = [0x61, 0xA8, 0xA6]) ∧
    ∃ r, ConvFileReturns .little (.bytewise [0x61, 0xA8, 0xA6] (by decide) fun _ => false)
        (.ofFun (eacuteConv 0xA8 0xA6 0xC3 0xA9)) () 0 [] 8 r ∧
      r.ret = convdNoerror ∧ r.sys.out = [0x61, 0xC3, 0xA9] := by
  have hutf8 : (eacuteCode 0xC3 0xA9).Writes [false, true] [0x61, 0xC3, 0xA9] :=
    .cons (w := [0x61]) rfl (.cons (w := [0xC3, 0xA9]) rfl .nil)
  have hgb2312 : (eacuteCode 0xA8 0xA6).Writes [false, true] [0x61, 0xA8, 0xA6] :=
    .cons (w := [0x61]) rfl (.cons (w := [0xA8, 0xA6]) rfl .nil)
  exact @convdConvFile_round _ _ .little
    (.bytewise [0xEF, 0xBB, 0xBF, 0x61, 0xC3, 0xA9] (by decide) fun _ => false)
    (.bytewise [0x61, 0xA8, 0xA6] (by decide) fun _ => false) _ _ () () 8 .utf8Bom .utf8 .gb2312
    _ _ _ _ utf8_writes_eacute gb2312_writes_eacute rfl rfl (Iconv.implements_ofFun _)
    (eacuteConv_transcodes (by decide)) (Iconv.implements_ofFun _)
    (eacuteConv_transcodes (by decide)) (fun _ => rfl) (fun _ => rfl) (by decide) (.inr rfl)
    (by decide) (by decide) _ hutf8 hgb2312 (by decide) (by decide)

end Convd
