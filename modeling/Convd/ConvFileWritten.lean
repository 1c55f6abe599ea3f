/-
# `Convd.ConvFileWritten` — what is in the output file when something fails

`convd_conv_file` writes as it reads, so a call that fails leaves a file behind.  What is in it
are the conversions of the first lines (`WrittenUpTo`), and how much of them the result says:

    `CONVD_NOERROR`      the head and all lines
    `CONVD_ERR_ICONV`    the head and the lines before the one that was refused
    anything else        a prefix of the head and the lines before some place

A line is converted as a whole or not at all; only a write that failed can end inside of one.  For
a text it follows that the file is at any time a prefix of the right one
(`convdConvFile_writes_front`).
-/
import Convd.ConvFileText

namespace Convd

open Loop

variable {σ : Type}

/-! ## Along the lines -/

/-- Behind `out₀` the file has what the lines `before` were converted to, perhaps not to the end;
the lines `after` were not converted. -/
structure WrittenUpTo (ic : Iconv σ) (L : UInt32) (out₀ : List UInt8)
    (before after outs : List (List UInt8)) (r : FileResult) : Prop where
  converts : List.Forall₂ (Converts ic L) before outs
  out_prefix : r.sys.out <+: out₀ ++ outs.flatten
  of_noerror : r.ret = convdNoerror → after = [] ∧ r.sys.out = out₀ ++ outs.flatten
  of_iconv : r.ret = convdErrIconv → r.sys.out = out₀ ++ outs.flatten ∧
    ∃ input rest, after = input :: rest ∧ Refuses ic L input

section Run

variable {host : Endian} {e : Env} {ic : Iconv σ} {bom : UcsBom} {L : UInt32} {r : FileResult}
  {out₀ : List UInt8} {lines before after outs : List (List UInt8)}

/-- Nothing was written since, and the call reports a file error. -/
theorem WrittenUpTo.of_file (hret : r.ret = convdErrFile) (hout : r.sys.out <+: out₀) :
    WrittenUpTo ic L out₀ [] lines [] r where
  converts := .nil
  out_prefix := by
    rw [List.flatten_nil, List.append_nil]
    exact hout
  of_noerror h := absurd (hret.symm.trans h) (convdErr_ne convdErrFile (by decide))
  of_iconv h := absurd (hret.symm.trans h) (by decide : convdErrFile ≠ convdErrIconv)

/-- A line written, then the rest. -/
theorem WrittenUpTo.cons {input out : List UInt8} (hconv : Converts ic L input out)
    (h : WrittenUpTo ic L (out₀ ++ out) before after outs r) :
    WrittenUpTo ic L out₀ (input :: before) after (out :: outs) r := by
  have hflat : out₀ ++ (out :: outs).flatten = out₀ ++ out ++ outs.flatten := by
    rw [List.flatten_cons, List.append_assoc]
  refine ⟨.cons hconv h.converts, ?_, ?_, ?_⟩ <;> rw [hflat]
  · exact h.out_prefix
  · exact h.of_noerror
  · exact h.of_iconv

/-- The loop along the lines ahead, however it ends. -/
theorem written_of_lines {ahead left : List UInt8} (h : Lines host bom L.toNat ahead lines left) :
    ∀ {pos : Nat} {st : LoopState σ}, Aligned bom L pos st → e.file.drop pos = ahead →
    ∃ r before after outs, Returns (convTurn host e ic) st r ∧ lines = before ++ after ∧
      WrittenUpTo ic L st.sys.out before after outs r := by
  induction h with
  | ended hend =>
      intro pos st hst hahead
      subst hahead
      have hturn := @convTurn_outcome σ host e ic st (hst.linesize_eq ▸ hst.linesize_ne)
      generalize hres : convTurn host e ic st = turn at hturn
      cases hturn with
      | fileFails s' evs _ hout =>
          exact ⟨_, [], [], [], .leave hres, rfl, .of_file rfl (hout ▸ List.prefix_rfl)⟩
      | finished s' evs _ hout =>
          refine ⟨_, [], [], [], .leave hres, rfl, .nil, ?_, fun _ => ⟨rfl, ?_⟩,
            fun hret => absurd hret.symm (convdErr_ne convdErrIconv (by decide))⟩
          · rw [hout, List.flatten_nil, List.append_nil]
          · rw [hout, List.flatten_nil, List.append_nil]
      | refused _ _ _ _ _ _ hfrom => exact absurd hfrom (hst.not_chunk hend)
      | writeFails _ _ _ _ _ _ _ _ hfrom => exact absurd hfrom (hst.not_chunk hend)
      | written _ _ _ _ _ hfrom => exact absurd hfrom (hst.not_chunk hend)
  | @line ahead bytes left lines hline hne hrest ih =>
      intro pos st hst hahead
      subst hahead
      have hturn := @convTurn_outcome σ host e ic st (hst.linesize_eq ▸ hst.linesize_ne)
      generalize hres : convTurn host e ic st = turn at hturn
      cases hturn with
      | fileFails s' evs _ hout =>
          exact ⟨_, [], _, [], .leave hres, rfl, .of_file rfl (hout ▸ List.prefix_rfl)⟩
      | finished s' evs _ _ _ _ _ hfin =>
          rw [hst.nextLine_eq] at hfin
          rcases hfin with hfin | hfin
          · exact nomatch hline.symm.trans hfin
          · exact absurd (Line.line.inj (hline.symm.trans hfin)) hne
      | refused input offset pos' s' evs evs' hfrom _ htext _ _ hout =>
          obtain ⟨rfl, -⟩ := hst.chunk_of_line hline hfrom
          rw [hst.linesize_eq] at htext
          refine ⟨_, [], input :: lines, [], .leave hres, rfl, .nil, ?_,
            fun hret => absurd hret (convdErr_ne convdErrIconv (by decide)),
            fun _ => ⟨?_, input, lines, rfl, _, htext⟩⟩
          · rw [hout, List.flatten_nil, List.append_nil]
          · rw [hout, List.flatten_nil, List.append_nil]
      | writeFails input out offset pos' k s' evs evs' hfrom _ htext _ _ _ hout =>
          obtain ⟨rfl, -⟩ := hst.chunk_of_line hline hfrom
          rw [hst.linesize_eq] at htext
          -- the line counts as converted, but not all of it was written
          refine ⟨_, [input], lines, [out], .leave hres, rfl, .cons ⟨_, htext⟩ .nil, ?_,
            fun hret => absurd hret (convdErr_ne convdErrFile (by decide)),
            fun hret => absurd hret (by decide : convdErrFile ≠ convdErrIconv)⟩
          rw [hout, List.flatten_singleton]
          exact (List.prefix_append_right_inj _).mpr (List.take_prefix k out)
      | written input out st' evs evs' hfrom _ htext _ hbom hsize hfd _ hout =>
          obtain ⟨rfl, -, hoff, hpos⟩ := hst.chunk_of_line hline hfrom
          rw [hst.linesize_eq] at htext
          have hst' : Aligned bom L (pos + input.length) st' :=
            hst.next hline hbom hsize hoff hpos hfd
          obtain ⟨r, before, after, outs, hret, hsplit, hwritten⟩ := ih hst' List.drop_drop.symm
          rw [hout] at hwritten
          exact ⟨r, input :: before, after, out :: outs, .again hres hret,
            congrArg (input :: ·) hsplit, hwritten.cons ⟨_, htext⟩⟩

end Run

/-! ## Up to the loop -/

section Call

variable {host : Endian} {e : Env} {ic : Iconv σ} {cd : σ} {inoffset : Nat}
  {outhead : List UInt8} {linesizemax : UInt32} {bom : UcsBom} {r : FileResult}

/-- A call that returns before its loop has written part of the head at most. -/
theorem out_prefix_of_early
    (h : convdConvFile host e ic 0 cd inoffset outhead linesizemax Sys.init = some r) :
    r.sys.out <+: outhead.take (toUb4 outhead.length) := by
  have hcall := convdConvFile_outcome host e ic cd inoffset outhead linesizemax Sys.init
  generalize hfun : (fun fuel => convdConvFile host e ic fuel cd inoffset outhead linesizemax
    Sys.init) = call at hcall
  have hzero : call 0 = some r := hfun ▸ h
  cases hcall with
  | openFails ret s' hopen =>
      obtain rfl := Option.some.inj hzero
      cases hopen <;> exact List.nil_prefix
  | createFails cpos s' hopen hfail =>
      obtain rfl := Option.some.inj hzero
      cases hopen
      exact List.nil_prefix
  | headFails cpos s' k t evs hopen hevs hfault =>
      obtain rfl := Option.some.inj hzero
      exact List.take_prefix k _
  | loop cpos s' ok pos t evs hopen hevs hskip => exact nomatch hzero

/-- A call that returned, none of the operations having failed whose result is dropped: it left
before its loop with an error, or it is the loop, started where it should. -/
theorem ConvFileReturnsFrom.early_or_started
    (h : ConvFileReturns host e ic cd inoffset outhead linesizemax r)
    (hbom : StartsWithBom e.file bom) (hdropped : DroppedOk r.sys.log) :
    (r.sys.out <+: outhead.take (toUb4 outhead.length) ∧
      (r.ret = convdErrFile ∨ r.ret = convdErrEncoding)) ∨
    ∃ pos st, Started e inoffset outhead linesizemax bom pos st ∧
      Returns (convTurn host e ic) st r := by
  have hstart := convdConvFile_start host e ic cd inoffset outhead linesizemax Sys.fresh_init
  have hearly := @out_prefix_of_early σ host e ic cd inoffset outhead linesizemax
  obtain ⟨fuel, hfuel⟩ := h
  generalize hfun : (fun fuel => convdConvFile host e ic fuel cd inoffset outhead linesizemax
    Sys.init) = call at hstart
  have hat : ∀ n, convdConvFile host e ic n cd inoffset outhead linesizemax Sys.init = call n :=
    fun n => hfun ▸ rfl
  rw [hat] at hfuel
  cases hstart with
  | noticed r' hret =>
      obtain rfl := Option.some.inj hfuel
      exact .inl ⟨hearly (hat 0), .inl hret⟩
  | notCreated r' _ _ hnot =>
      obtain rfl := Option.some.inj hfuel
      exact absurd hdropped hnot
  | encoding r' hret =>
      obtain rfl := Option.some.inj hfuel
      exact .inl ⟨hearly (hat 0), .inr hret⟩
  | loop st _ hL hplace =>
      rcases hplace with ⟨bom', pos, hst⟩ | ⟨hnot, -⟩
      · obtain rfl := hst.starts.unique hbom
        exact .inr ⟨pos, st, hst, fuel, hfuel⟩
      · obtain ⟨evs, hlog⟩ := returns_log hL ⟨fuel, hfuel⟩
        rw [← hlog] at hdropped
        exact absurd (droppedOk_append.mp hdropped).1 hnot

/-- Whatever fails, and wherever: behind the head a call has written what the first lines were
converted to. -/
theorem ConvFileReturnsFrom.written
    (h : ConvFileReturns host e ic cd inoffset outhead linesizemax r)
    (hbom : StartsWithBom e.file bom) (hdropped : DroppedOk r.sys.log)
    (hin : bomLength bom + inoffset < 2 ^ 63) {lines : List (List UInt8)} {left : List UInt8}
    (hlines : Lines host bom (lineSize linesizemax).toNat
      (e.file.drop (bomLength bom + inoffset)) lines left) :
    ∃ before after outs, lines = before ++ after ∧ WrittenUpTo ic (lineSize linesizemax)
      (outhead.take (toUb4 outhead.length)) before after outs r := by
  rcases h.early_or_started hbom hdropped with ⟨hout, hret⟩ | ⟨pos, st, hst, hreturns⟩
  · refine ⟨[], lines, [], rfl, .nil, ?_, ?_, ?_⟩
    · rw [List.flatten_nil, List.append_nil]
      exact hout
    · intro hno
      rcases hret with hret | hret <;> exact absurd (hret.symm.trans hno) (by decide)
    · intro hno
      rcases hret with hret | hret <;> exact absurd (hret.symm.trans hno) (by decide)
  · have haligned := hst.aligned
    rw [hst.pos_eq hin] at haligned
    obtain ⟨r', before, after, outs, hret, hsplit, hwritten⟩ :=
      @written_of_lines σ host e ic _ _ _ _ _ hlines _ _ haligned rfl
    obtain rfl := hreturns.unique hret
    rw [hst.out_eq] at hwritten
    exact ⟨before, after, outs, hsplit, hwritten⟩

/-! ## Texts -/

variable {conv : List UInt8 → Option (List UInt8)}

/-- `WrittenUpTo`, of the runs of a text and the function that a converter implements. -/
structure WrittenRuns (conv : List UInt8 → Option (List UInt8)) (region out₀ : List UInt8)
    (before after outs : List (List UInt8)) (r : FileResult) : Prop where
  runs_eq : List.runs topBit region = before ++ after
  converts : before.mapM conv = some outs
  out_prefix : r.sys.out <+: out₀ ++ outs.flatten
  of_noerror : r.ret = convdNoerror → after = [] ∧ r.sys.out = out₀ ++ outs.flatten
  of_iconv : r.ret = convdErrIconv → r.sys.out = out₀ ++ outs.flatten ∧
    ∃ run rest, after = run :: rest ∧ conv run = none

theorem WrittenUpTo.runs {L : UInt32} {region out₀ : List UInt8}
    {before after outs : List (List UInt8)} (h : WrittenUpTo ic L out₀ before after outs r)
    (hsplit : List.runs topBit region = before ++ after) (hic : Implements ic conv)
    (hmax : 5 * L.toNat < 2 ^ 32)
    (hroom : ∀ run ∈ List.runs topBit region, ∀ out ∈ conv run, out.length ≤ 4 * L.toNat) :
    WrittenRuns conv region out₀ before after outs r where
  runs_eq := hsplit
  converts := List.mapM_eq_some_of_forall₂ (h.converts.imp fun _ _ h => hic.converts h)
  out_prefix := h.out_prefix
  of_noerror := h.of_noerror
  of_iconv := by
    intro hret
    obtain ⟨hout, input, rest, rfl, href⟩ := h.of_iconv hret
    have hmem : input ∈ List.runs topBit region := by simp [hsplit]
    have hfit := hroom input hmem
    rw [← toNat_room hmax] at hfit
    exact ⟨hout, input, rest, rfl, hic.refuses hfit href⟩

/-- The lines of a text whose runs are shorter than a line are its runs. -/
theorem ConvFileReturnsFrom.writtenRuns
    (h : ConvFileReturns host e ic cd inoffset outhead linesizemax r)
    (hdropped : DroppedOk r.sys.log) (hbom : StartsWithBom e.file bom)
    (htext : bom = .noneBom ∨ bom = .utf8Bom) (hin : bomLength bom + inoffset ≤ e.file.length)
    (hmax : 5 * (lineSize linesizemax).toNat < 2 ^ 32)
    (hruns : ∀ r ∈ List.runs topBit (e.file.drop (bomLength bom + inoffset)),
      r.length < (lineSize linesizemax).toNat)
    (hic : Implements ic conv)
    (hroom : ∀ r ∈ List.runs topBit (e.file.drop (bomLength bom + inoffset)),
      ∀ out ∈ conv r, out.length ≤ 4 * (lineSize linesizemax).toNat) :
    ∃ before after outs, WrittenRuns conv (e.file.drop (bomLength bom + inoffset))
      (outhead.take (toUb4 outhead.length)) before after outs r := by
  have hlines := @lines_text host bom _ (isText_of_bom htext) (by omega) _ hruns
  obtain ⟨before, after, outs, hsplit, hwritten⟩ := h.written hbom hdropped
    (Nat.lt_of_le_of_lt hin e.file_lt) hlines
  exact ⟨before, after, outs, hwritten.runs hsplit hic hmax hroom⟩

/-- However operations fail, as long as none does whose result is dropped, the output file of a
text with short runs has the head and the conversion of its first runs, or a prefix of that; of
all runs if the call succeeds, and of those before one that is refused if it reports that. -/
theorem convdConvFile_writes_front
    (h : ConvFileReturns host e ic cd inoffset outhead linesizemax r)
    (hdropped : DroppedOk r.sys.log) (hbom : StartsWithBom e.file bom)
    (htext : bom = .noneBom ∨ bom = .utf8Bom) (hin : bomLength bom + inoffset ≤ e.file.length)
    (hmax : 5 * (lineSize linesizemax).toNat < 2 ^ 32)
    (hruns : ∀ r ∈ List.runs topBit (e.file.drop (bomLength bom + inoffset)),
      r.length < (lineSize linesizemax).toNat)
    (hic : Implements ic conv) (hconv : List.RunWise topBit conv)
    (hroom : ∀ r ∈ List.runs topBit (e.file.drop (bomLength bom + inoffset)),
      ∀ out ∈ conv r, out.length ≤ 4 * (lineSize linesizemax).toNat) :
    ∃ before after text,
      List.runs topBit (e.file.drop (bomLength bom + inoffset)) = before ++ after ∧
      before.mapM conv = some text ∧
      r.sys.out <+: outhead.take (toUb4 outhead.length) ++ text.flatten ∧
      (r.ret = convdNoerror → after = [] ∧
        r.sys.out = outhead.take (toUb4 outhead.length) ++ text.flatten) ∧
      (r.ret = convdErrIconv → r.sys.out = outhead.take (toUb4 outhead.length) ++ text.flatten ∧
        ∃ run rest, after = run :: rest ∧ conv run = none) ∧
      ∀ out, conv (e.file.drop (bomLength bom + inoffset)) = some out →
        r.sys.out <+: outhead.take (toUb4 outhead.length) ++ out := by
  obtain ⟨before, after, outs, hwritten⟩ :=
    h.writtenRuns hdropped hbom htext hin hmax hruns hic hroom
  refine ⟨before, after, outs, hwritten.runs_eq, hwritten.converts, hwritten.out_prefix,
    hwritten.of_noerror, hwritten.of_iconv, ?_⟩
  intro out hout
  rw [hconv (e.file.drop _), hwritten.runs_eq, List.mapM_append, hwritten.converts] at hout
  rcases hafter : after.mapM conv with _ | more
  · rw [hafter] at hout
    cases hout
  · rw [hafter] at hout
    obtain rfl := Option.some.inj hout
    refine hwritten.out_prefix.trans ((List.prefix_append_right_inj _).mpr ?_)
    rw [List.flatten_append]
    exact List.prefix_append _ _

end Call

/-- A write that fails between the two bytes of an é leaves the first of them. -/
theorem convdConvFile_writes_front_half :
    ∃ r, ConvFileReturns .little (.bytewise [0x61, 0xE9, 0x62] (by decide) fun t => t == 31)
        (.ofFun fun text => some (text.flatMap latin1ToUtf8)) () 0 [0x3E] 8 r ∧
      r.ret = convdErrFile ∧ r.sys.out = [0x3E, 0x61, 0xC3] ∧
      ∃ before after text, List.runs topBit ([0x61, 0xE9, 0x62].drop 0) = before ++ after ∧
        (before.mapM fun run => some (run.flatMap latin1ToUtf8)) = some text ∧
        r.sys.out <+: [0x3E] ++ text.flatten ∧
        (r.ret = convdNoerror → after = [] ∧ r.sys.out = [0x3E] ++ text.flatten) ∧
        (r.ret = convdErrIconv → r.sys.out = [0x3E] ++ text.flatten ∧
          ∃ run rest, after = run :: rest ∧ some (run.flatMap latin1ToUtf8) = none) ∧
        ∀ out, some (([0x61, 0xE9, 0x62].drop 0).flatMap latin1ToUtf8) = some out →
          r.sys.out <+: [0x3E] ++ out := by
  have hcall : (convdConvFile .little
      (.bytewise [0x61, 0xE9, 0x62] (by decide) fun t => t == 31)
      (.ofFun fun text => some (text.flatMap latin1ToUtf8)) 8 () 0 [0x3E] 8 Sys.init).any
        (fun r => r.ret == convdErrFile && r.sys.out == [0x3E, 0x61, 0xC3] &&
          decide (DroppedOk r.sys.log)) = true := by decide +kernel
  obtain ⟨r, hr, hand⟩ := (Option.any_eq_true _ _).mp hcall
  simp only [Bool.and_eq_true, beq_iff_eq, decide_eq_true_eq] at hand
  obtain ⟨⟨hret, hout⟩, hdropped⟩ := hand
  exact ⟨r, ⟨8, hr⟩, hret, hout, @convdConvFile_writes_front _ _ _ _ _ _ _ _ .noneBom r _
    ⟨8, hr⟩ hdropped (by decide) (.inl rfl) (by decide) (by decide) (by decide)
    (Iconv.implements_ofFun _) (List.runWise_flatMap _) (by decide)⟩

end Convd
