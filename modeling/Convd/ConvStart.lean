/-
# `Convd.ConvStart` — a call of `convd_conv_file` up to its loop

A call can leave early, and it can lose its place when an operation fails whose
result it drops; otherwise it is the loop, started behind the mark and `inoffset`
bytes (`StartOutcome`).  Two corollaries are what results about calls start from:

    no operation fails                       the loop           (`Env.Faultless.started`)
    none fails whose result is dropped       an error code, or
                                             the loop           (`ConvFileReturnsFrom.started`)

and either loop runs along the lines of what lies behind (`Env.Faultless.runs`,
`ConvFileReturnsFrom.runs`).
-/
import Convd.ConvRun

namespace Convd

open Loop

variable {σ : Type}

/-- No operation has failed yet, and no text was handed over. -/
structure Sys.Fresh (s : Sys) : Prop where
  log_ok : AllOk s.log
  handed_eq : handed s.log = []

theorem Sys.fresh_init : Sys.init.Fresh := ⟨allOk_nil, rfl⟩

/-- The first state of the loop when nothing failed before: behind the mark and
`inoffset` bytes, with the head written as far as its length, taken for a `ub4`, says. -/
structure Started (e : Env) (inoffset : Nat) (outhead : List UInt8) (linesizemax : UInt32)
    (bom : UcsBom) (pos : Nat) (st : LoopState σ) : Prop where
  aligned : Aligned bom (lineSize linesizemax) pos st
  starts : StartsWithBom e.file bom
  bom_ne : bom ≠ .utf8BomAsk
  pos_eq : bomLength bom + inoffset < 2 ^ 63 → pos = bomLength bom + inoffset
  log_ok : AllOk st.sys.log
  handed_eq : handed st.sys.log = []
  out_eq : st.sys.out = outhead.take (toUb4 outhead.length)
  outfdsize_eq : st.outfdsize = 0

/-- What a call comes to: an early return or the loop, which starts where it should
unless an operation failed whose result is dropped. -/
inductive StartOutcome (host : Endian) (e : Env) (ic : Iconv σ) (inoffset : Nat)
    (outhead : List UInt8) (linesizemax : UInt32) : (Nat → Option FileResult) → Prop where
  | noticed (r : FileResult) : r.ret = convdErrFile → NoticedFails r.sys.log →
      handed r.sys.log = [] → (∃ t, e.fails t = true) →
      StartOutcome host e ic inoffset outhead linesizemax (fun _ => some r)
  | notCreated (r : FileResult) : r.ret = convdNoerror → ¬ NoticedFails r.sys.log →
      ¬ DroppedOk r.sys.log → (∃ t, e.fails t = true) →
      StartOutcome host e ic inoffset outhead linesizemax (fun _ => some r)
  | encoding (r : FileResult) : r.ret = convdErrEncoding → AllOk r.sys.log →
      handed r.sys.log = [] → e.file = [0xEF, 0xBB] →
      StartOutcome host e ic inoffset outhead linesizemax (fun _ => some r)
  | loop (st : LoopState σ) : ¬ NoticedFails st.sys.log → st.cpos.linesize ≠ 0xFFFFFFFF →
      (∃ bom pos, Started e inoffset outhead linesizemax bom pos st) ∨
        (¬ DroppedOk st.sys.log ∧ ((∃ t, e.fails t = true) ∨
          StartsWithBom e.file st.cpos.bom ∧ 2 ^ 63 ≤ bomLength st.cpos.bom + inoffset)) →
      StartOutcome host e ic inoffset outhead linesizemax
        (fun fuel => run (convTurn host e ic) fuel st)

/-- What opening leaves behind for the loop. -/
theorem opened_cases {e : Env} {linesizemax : UInt32} {cpos : ConvPosition} {s₀ s : Sys}
    (h₀ : s₀.Fresh) (h : OpenOutcome e linesizemax s₀ (.ok cpos, s)) :
    ∃ bom, bom ≠ .utf8BomAsk ∧ cpos.bom = bom ∧ cpos.offset = bomLength bom ∧
      cpos.linesize = lineSize linesizemax ∧ s.pos = bomLength bom ∧
      ¬ NoticedFails s.log ∧ handed s.log = [] ∧
      (StartsWithBom e.file bom ∧ AllOk s.log ∨ ¬ DroppedOk s.log ∧ ∃ t, e.fails t = true) := by
  cases h with
  | opened bom t evs hheader hask =>
      refine ⟨bom, hask, rfl, rfl, rfl, rfl, ?_, ?_, ?_⟩
      · rcases hheader with ⟨hevs, -⟩ | ⟨hevs, -⟩
        · simp [h₀.log_ok.not_noticed, Event.ok, hevs.allOk.not_noticed]
        · simp [h₀.log_ok.not_noticed, Event.ok, hevs.not_noticed fun _ => rfl]
      · rcases hheader with ⟨hevs, -⟩ | ⟨hevs, -⟩ <;> simp [h₀.handed_eq, hevs.handed]
      · rcases hheader with ⟨hevs, hstarts⟩ | ⟨hevs, hfault⟩
        · exact .inl ⟨hstarts, by simp [h₀.log_ok, Event.ok, hevs.allOk]⟩
        · exact .inr ⟨by simp [hevs.not_droppedOk fun _ => rfl], hfault⟩

theorem open_error_cases {e : Env} {linesizemax : UInt32} {ret : Int} {s₀ s : Sys}
    (h₀ : s₀.Fresh) (h : OpenOutcome e linesizemax s₀ (.error ret, s)) :
    handed s.log = [] ∧
      ((ret = convdErrFile ∧ NoticedFails s.log ∧ ∃ t, e.fails t = true) ∨
       (ret = convdErrEncoding ∧ AllOk s.log ∧ e.file = [0xEF, 0xBB])) := by
  cases h with
  | openFails hfail =>
      exact ⟨by simp [h₀.handed_eq, Sys.did],
        .inl ⟨rfl, by simp [Sys.did, Event.dropped, Event.ok], _, hfail⟩⟩
  | encoding pos t evs hevs hfile =>
      exact ⟨by simp [h₀.handed_eq, hevs.handed],
        .inr ⟨rfl, by simp [h₀.log_ok, Event.ok, hevs.allOk], hfile⟩⟩
  | seekFails bom pos t evs hheader hfault =>
      have hdropped : Event.dropped (.call (.seekSet (bomLength bom)) false) = false := by
        cases bom <;> rfl
      refine ⟨?_, .inl ⟨rfl, by simp [hdropped, Event.ok], hfault⟩⟩
      rcases hheader with hevs | hevs <;> simp [h₀.handed_eq, hevs.handed]

/-- A seek over `inoffset` bytes that went well leaves the file where `offset` says. -/
theorem skip_aligned {bl inoffset : Nat} (h0 : 0 ≤ (bl : Int) + toSb8 inoffset)
    (hlt : (bl : Int) + toSb8 inoffset < 2 ^ 63) :
    toSb8 (bl + inoffset) = ((bl : Int) + toSb8 inoffset).toNat := by
  have hmod : toSb8 (bl + toSb8 inoffset) = toSb8 (bl + inoffset) := Int.add_bmod_bmod
  rw [Int.toNat_of_nonneg h0, ← hmod]
  exact toSb8_of_lt h0 hlt

/-- Only an `inoffset` from 2 ^ 63 on, or near it, leads out of the range of a file. -/
theorem skip_out_of_range {bl inoffset : Nat}
    (h : (bl : Int) + toSb8 inoffset < 0 ∨ 2 ^ 63 ≤ (bl : Int) + toSb8 inoffset) :
    2 ^ 63 ≤ bl + inoffset := by
  by_contra hlt
  rw [toSb8_of_lt (Int.natCast_nonneg _) (by omega)] at h
  omega

theorem convdConvFile_start (host : Endian) (e : Env) (ic : Iconv σ) (cd : σ) (inoffset : Nat)
    (outhead : List UInt8) (linesizemax : UInt32) {s : Sys} (h₀ : s.Fresh) :
    StartOutcome host e ic inoffset outhead linesizemax
      (fun fuel => convdConvFile host e ic fuel cd inoffset outhead linesizemax s) := by
  have hcall := convdConvFile_outcome host e ic cd inoffset outhead linesizemax s
  generalize (fun fuel => convdConvFile host e ic fuel cd inoffset outhead linesizemax s)
    = call at hcall
  cases hcall with
  | openFails ret s' hopen =>
      obtain ⟨hnone, ⟨rfl, hfails, hfault⟩ | ⟨rfl, hok, hfile⟩⟩ := open_error_cases h₀ hopen
      · exact .noticed _ rfl hfails hnone hfault
      · exact .encoding _ rfl hok hnone hfile
  | createFails cpos s' hopen hfail =>
      obtain ⟨bom, -, -, -, -, -, hquiet, -, -⟩ := opened_cases h₀ hopen
      have hlog : (ucsFileReadClose (s'.did .create false)).log = s'.log ++ [.call .create false,
          .call .usePos true, .call .closeText true, .call .free true] := by
        simp [ucsFileReadClose, fileClose, Sys.did]
      refine .notCreated _ rfl ?_ ?_ ⟨_, hfail⟩
      · simp [hlog, hquiet, Event.dropped, Event.ok]
      · simp [hlog, Event.dropped, Event.ok]
  | headFails cpos s' k t evs hopen hevs hfault =>
      obtain ⟨bom, -, -, -, -, -, -, hnone, -⟩ := opened_cases h₀ hopen
      refine .noticed _ rfl ?_ ?_ hfault <;> rw [closeBoth_log]
      · simp [hevs.noticed fun _ => rfl]
      · simp [hnone, hevs.handed]
  | loop cpos s' ok pos t evs hopen hevs hskip =>
      obtain ⟨bom, hask, hbom, hoff, hsize, hpos, hquiet, hnone, hheader⟩ := opened_cases h₀ hopen
      rw [hpos] at hskip
      have hbl := bomLength_le bom
      have hmem : ∀ l, .call (.seekCur (toSb8 inoffset)) ok ∈ l ++ .call .create true ::
          (evs ++ [.call .usePos true, .call (.seekCur (toSb8 inoffset)) ok]) := by
        intro l
        simp
      refine .loop _ ?_ ?_ ?_
      · simp [hquiet, hevs.allOk.not_noticed, Event.dropped, Event.ok]
      · exact hsize ▸ lineSize_ne linesizemax
      · cases hskip with
        | skipped h0 hlt =>
            rcases hheader with ⟨hstarts, hok⟩ | ⟨hdropped, hfault⟩
            · have hstart : toSb8 (cpos.offset + inoffset)
                  = ((bomLength bom : Int) + toSb8 inoffset).toNat := by
                rw [hoff]
                exact skip_aligned h0 hlt
              have hstart_lt : ((bomLength bom : Int) + toSb8 inoffset).toNat < 2 ^ 63 := by omega
              have hin : bomLength bom + inoffset < 2 ^ 63 →
                  ((bomLength bom : Int) + toSb8 inoffset).toNat = bomLength bom + inoffset := by
                intro hin
                rw [toSb8_of_lt (Int.natCast_nonneg _) (by omega)]
                omega
              generalize ((bomLength bom : Int) + toSb8 inoffset).toNat = start at *
              refine .inl ⟨bom, start, ⟨hbom, hsize, lineSize_ne _, hstart, rfl, Nat.le_refl _,
                hstart_lt, Nat.two_pow_pos 64⟩, hstarts, hask, hin, ?_, ?_, rfl, rfl⟩
              · simp [hok, hevs.allOk, Event.ok]
              · simp [hnone, hevs.handed]
            · exact .inr ⟨fun h => hdropped (droppedOk_append.mp h).1, .inl hfault⟩
        | fails hfault =>
            refine .inr ⟨?_, ?_⟩
            · intro h
              cases h _ (hmem _) rfl
            · show _ ∨ StartsWithBom e.file cpos.bom ∧ 2 ^ 63 ≤ bomLength cpos.bom + inoffset
              rw [hbom]
              rcases hheader with ⟨hstarts, -⟩ | ⟨-, hfault'⟩
              · exact hfault.imp_right fun h => ⟨hstarts, skip_out_of_range h⟩
              · exact .inl hfault'

/-- What a call that returned came to. -/
theorem ConvFileReturnsFrom.start {host : Endian} {e : Env} {ic : Iconv σ} {cd : σ} {inoffset : Nat}
    {outhead : List UInt8} {linesizemax : UInt32} {s : Sys} (h₀ : s.Fresh) :
    ∃ call, StartOutcome host e ic inoffset outhead linesizemax call ∧
      ∀ r, ConvFileReturnsFrom host e ic cd inoffset outhead linesizemax s r ↔
        ∃ fuel, call fuel = some r :=
  ⟨_, convdConvFile_start host e ic cd inoffset outhead linesizemax h₀, fun _ => Iff.rfl⟩

theorem Env.Faultless.no_fault {e : Env} (h : e.Faultless) : ¬ ∃ t, e.fails t = true := by
  rintro ⟨t, ht⟩
  rw [h t] at ht
  cases ht

/-- When no operation fails, a call is the loop, started where it should. -/
theorem Env.Faultless.startedFrom {e : Env} (h : e.Faultless) (host : Endian) (ic : Iconv σ)
    (cd : σ) {inoffset : Nat} (outhead : List UInt8) (linesizemax : UInt32) {bom : UcsBom}
    {s : Sys} (h₀ : s.Fresh) (hbom : StartsWithBom e.file bom) (hask : bom ≠ .utf8BomAsk)
    (hin : bomLength bom + inoffset < 2 ^ 63) :
    ∃ st, Started e inoffset outhead linesizemax bom (bomLength bom + inoffset) st ∧
      ∀ r, ConvFileReturnsFrom host e ic cd inoffset outhead linesizemax s r ↔
        Returns (convTurn host e ic) st r := by
  have hnofault := h.no_fault
  obtain ⟨call, hstart, hcall⟩ := @ConvFileReturnsFrom.start σ host e ic cd inoffset outhead
    linesizemax _ h₀
  cases hstart with
  | noticed r _ _ _ hfault => exact absurd hfault hnofault
  | notCreated r _ _ _ hfault => exact absurd hfault hnofault
  | encoding r _ _ _ hfile =>
      have hisask : StartsWithBom e.file .utf8BomAsk := hfile
      exact absurd (hbom.unique hisask) hask
  | loop st _ _ hplace =>
      rcases hplace with ⟨bom', pos, hst⟩ | ⟨-, hfault | ⟨hstarts, hbig⟩⟩
      · obtain rfl := hst.starts.unique hbom
        rw [hst.pos_eq hin] at hst
        exact ⟨st, hst, hcall⟩
      · exact absurd hfault hnofault
      · rw [hstarts.unique hbom] at hbig
        exact absurd hin (Nat.not_lt.mpr hbig)

theorem Env.Faultless.started {e : Env} (h : e.Faultless) (host : Endian) (ic : Iconv σ) (cd : σ)
    {inoffset : Nat} (outhead : List UInt8) (linesizemax : UInt32) {bom : UcsBom}
    (hbom : StartsWithBom e.file bom) (hask : bom ≠ .utf8BomAsk)
    (hin : bomLength bom + inoffset < 2 ^ 63) :
    ∃ st, Started e inoffset outhead linesizemax bom (bomLength bom + inoffset) st ∧
      ∀ r, ConvFileReturns host e ic cd inoffset outhead linesizemax r ↔
        Returns (convTurn host e ic) st r :=
  h.startedFrom host ic cd outhead linesizemax Sys.fresh_init hbom hask hin

/-- When no operation fails, a call runs along the lines of the region. -/
theorem Env.Faultless.runsFrom {e : Env} (h : e.Faultless) {host : Endian} (ic : Iconv σ) (cd : σ)
    {inoffset : Nat} (outhead : List UInt8) {linesizemax : UInt32} {bom : UcsBom} {s : Sys}
    (h₀ : s.Fresh) (hbom : StartsWithBom e.file bom) (hask : bom ≠ .utf8BomAsk)
    (hin : bomLength bom + inoffset < 2 ^ 63) {lines : List (List UInt8)} {left : List UInt8}
    (hlines : Lines host bom (lineSize linesizemax).toNat
      (e.file.drop (bomLength bom + inoffset)) lines left) :
    ∃ (st : LoopState σ) (r : FileResult),
      Started e inoffset outhead linesizemax bom (bomLength bom + inoffset) st ∧
      ConvFileReturnsFrom host e ic cd inoffset outhead linesizemax s r ∧
      RunOutcome e ic (lineSize linesizemax) lines st.outfdsize st.sys r := by
  obtain ⟨st, hst, hreturns⟩ := h.startedFrom host ic cd outhead linesizemax h₀ hbom hask hin
  obtain ⟨r, hret, hrun⟩ := @returns_of_lines σ host e ic _ _ _ _ _ hlines _ _ hst.aligned rfl
  exact ⟨st, r, hst, (hreturns r).mpr hret, hrun⟩

theorem Env.Faultless.runs {e : Env} (h : e.Faultless) {host : Endian} (ic : Iconv σ) (cd : σ)
    {inoffset : Nat} (outhead : List UInt8) {linesizemax : UInt32} {bom : UcsBom}
    (hbom : StartsWithBom e.file bom) (hask : bom ≠ .utf8BomAsk)
    (hin : bomLength bom + inoffset < 2 ^ 63) {lines : List (List UInt8)} {left : List UInt8}
    (hlines : Lines host bom (lineSize linesizemax).toNat
      (e.file.drop (bomLength bom + inoffset)) lines left) :
    ∃ (st : LoopState σ) (r : FileResult),
      Started e inoffset outhead linesizemax bom (bomLength bom + inoffset) st ∧
      ConvFileReturns host e ic cd inoffset outhead linesizemax r ∧
      RunOutcome e ic (lineSize linesizemax) lines st.outfdsize st.sys r :=
  h.runsFrom ic cd outhead Sys.fresh_init hbom hask hin hlines

/-- A call that returned, none of the operations having failed whose result is dropped:
either it reports an error before it reads a line, or it is the loop, started where it
should. -/
theorem ConvFileReturnsFrom.started {host : Endian} {e : Env} {ic : Iconv σ} {cd : σ}
    {inoffset : Nat} {outhead : List UInt8} {linesizemax : UInt32} {s : Sys} {r : FileResult}
    {bom : UcsBom} (h₀ : s.Fresh)
    (h : ConvFileReturnsFrom host e ic cd inoffset outhead linesizemax s r)
    (hbom : StartsWithBom e.file bom) (hdropped : DroppedOk r.sys.log) :
    (handed r.sys.log = [] ∧ (r.ret = convdErrFile ∧ NoticedFails r.sys.log ∨
      r.ret = convdErrEncoding ∧ bom = .utf8BomAsk)) ∨
    ∃ pos st, Started e inoffset outhead linesizemax bom pos st ∧
      Returns (convTurn host e ic) st r := by
  obtain ⟨call, hstart, hcall⟩ := ConvFileReturnsFrom.start (σ := σ) h₀
  obtain ⟨fuel, hfuel⟩ := (hcall r).mp h
  cases hstart with
  | noticed r' hret hfails hnone _ =>
      cases hfuel
      exact .inl ⟨hnone, .inl ⟨hret, hfails⟩⟩
  | notCreated r' _ _ hnot _ =>
      cases hfuel
      exact absurd hdropped hnot
  | encoding r' hret _ hnone hfile =>
      cases hfuel
      have hisask : StartsWithBom e.file .utf8BomAsk := hfile
      exact .inl ⟨hnone, .inr ⟨hret, hbom.unique hisask⟩⟩
  | loop st _ hL hplace =>
      rcases hplace with ⟨bom', pos, hst⟩ | ⟨hnot, -⟩
      · obtain rfl := hst.starts.unique hbom
        exact .inr ⟨pos, st, hst, fuel, hfuel⟩
      · obtain ⟨evs, hlog⟩ := returns_log hL ⟨fuel, hfuel⟩
        rw [← hlog] at hdropped
        exact absurd (droppedOk_append.mp hdropped).1 hnot

/-- So it reports an error before it reads a line, or runs along the lines of the region. -/
theorem ConvFileReturnsFrom.runs {host : Endian} {e : Env} {ic : Iconv σ} {cd : σ}
    {inoffset : Nat} {outhead : List UInt8} {linesizemax : UInt32} {s : Sys} {r : FileResult}
    {bom : UcsBom} (h₀ : s.Fresh)
    (h : ConvFileReturnsFrom host e ic cd inoffset outhead linesizemax s r)
    (hbom : StartsWithBom e.file bom) (hdropped : DroppedOk r.sys.log)
    (hin : bomLength bom + inoffset < 2 ^ 63) {lines : List (List UInt8)} {left : List UInt8}
    (hlines : Lines host bom (lineSize linesizemax).toNat
      (e.file.drop (bomLength bom + inoffset)) lines left) :
    (handed r.sys.log = [] ∧ (r.ret = convdErrFile ∧ NoticedFails r.sys.log ∨
      r.ret = convdErrEncoding ∧ bom = .utf8BomAsk)) ∨
    ∃ (pos : Nat) (st : LoopState σ), Started e inoffset outhead linesizemax bom pos st ∧
      RunOutcome e ic (lineSize linesizemax) lines st.outfdsize st.sys r := by
  rcases h.started h₀ hbom hdropped with herror | ⟨pos, st, hst, hreturns⟩
  · exact .inl herror
  · have haligned := hst.aligned
    rw [hst.pos_eq hin] at haligned
    obtain ⟨r', hret, hrun⟩ := @returns_of_lines σ host e ic _ _ _ _ _ hlines _ _ haligned rfl
    obtain rfl := hreturns.unique hret
    exact .inr ⟨pos, st, hst, hrun⟩

end Convd
