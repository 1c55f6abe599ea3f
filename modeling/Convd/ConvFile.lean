/-
# `Convd.ConvFile` — `convd_conv_file`

Open the input, create the output, write what goes ahead, skip `inoffset` bytes, then
a loop: read a line, convert it, write it.  Each exit closes both files and frees the
position object.

Here are the code and its inversion lemmas: what opening comes to (`OpenOutcome`),
what converting one line comes to (`ChunkOutcome`), what the whole call comes to
before the loop (`convdConvFile_cases`).  Three results are never looked at:

    header read in `ucs_file_read_open`    taken for a size
    `file_write_new`                       on failure `ret` is still `CONVD_NOERROR`
    `file_seek` by `inoffset`              dropped
-/
import Convd.Iconv
import Convd.Lib.Loop
import Convd.ReadNext

namespace Convd

open Loop

variable {σ : Type}

/-! ## The code -/

/-- What a call leaves: the result, what it stored in `*outfilesize`, the files. -/
structure FileResult where
  ret : Int
  outfilesize : Option Nat
  sys : Sys

/-- The variables of the loop. -/
structure LoopState (σ : Type) where
  cpos : ConvPosition
  cd : σ
  outfdsize : Nat
  sys : Sys

/-- `file_close(&outfd); ucs_file_read_close(cpos);` -/
def closeBoth (s : Sys) : Sys := ucsFileReadClose (fileClose .closeOut s)

/-- The body of the loop, for a line of length `ret`. -/
def convChunk (e : Env) (ic : Iconv σ) (cpos : ConvPosition) (cd : σ) (outfdsize : Nat)
    (ret : Int) (s : Sys) : Turn (LoopState σ) FileResult :=
  let input := cpos.linebuf.load 0 ret.toNat
  match convdConvText ic cd input (cpos.linesize * 4).toNat (s.did .usePos true) with
  | (none, _, s) => .leave ⟨convdErrIconv, none, closeBoth s⟩
  | (some out, cd, s) =>
      let cpos := { cpos with linebuf := cpos.linebuf.store cpos.linesize.toNat out }
      let (written, s) := fileWritebytes e (out.take (toUb4 out.length)) s
      if written = -1 then .leave ⟨convdErrFile, none, closeBoth s⟩
      else .again ⟨cpos, cd, (outfdsize + out.length) % 2 ^ 64, s⟩

/-- The room given to `convd_conv_text`. -/
theorem toNat_mul_four (L : UInt32) : (L * 4).toNat = 4 * L.toNat % 2 ^ 32 := by
  have hfour : (4 : UInt32).toNat = 4 := rfl
  rw [UInt32.toNat_mul, hfour, Nat.mul_comm]

/-- One turn of `while ((ret = ucs_file_read_next(cpos)) > 0)`, and what follows it. -/
def convTurn (host : Endian) (e : Env) (ic : Iconv σ) (st : LoopState σ) :
    Turn (LoopState σ) FileResult :=
  let (ret, cpos, s) := ucsFileReadNext host e st.cpos st.sys
  let s := s.note (.readNext ret)
  if ret > 0 then convChunk e ic cpos st.cd st.outfdsize ret s
  else .leave ⟨ret, if ret = convFinished then some st.outfdsize else none, closeBoth s⟩

/-- `convd_conv_file` with a non-null `outfilesize`; none when the loop has not ended
on this fuel. -/
def convdConvFile (host : Endian) (e : Env) (ic : Iconv σ) (fuel : Nat) (cd : σ)
    (inoffset : Nat) (outhead : List UInt8) (linesizemax : UInt32) (s : Sys) :
    Option FileResult :=
  match ucsFileReadOpen e linesizemax s with
  | (.error ret, s) => some ⟨ret, none, s⟩
  | (.ok cpos, s) =>
      match fileWriteNew e s with
      | (false, s) => some ⟨convdNoerror, none, ucsFileReadClose s⟩
      | (true, s) =>
          let (written, s) :=
            if outhead.length ≠ 0 then
              fileWritebytes e (outhead.take (toUb4 outhead.length)) s
            else (0, s)
          if written = -1 then some ⟨convdErrFile, none, closeBoth s⟩
          else
            let cpos := { cpos with offset := toSb8 (cpos.offset + inoffset) }
            let (_, s) := fileSeekCur e (toSb8 inoffset) (s.did .usePos true)
            run (convTurn host e ic) fuel ⟨cpos, cd, 0, s⟩

/-- A call made in `s` returns `r`. -/
def ConvFileReturnsFrom (host : Endian) (e : Env) (ic : Iconv σ) (cd : σ) (inoffset : Nat)
    (outhead : List UInt8) (linesizemax : UInt32) (s : Sys) (r : FileResult) : Prop :=
  ∃ fuel, convdConvFile host e ic fuel cd inoffset outhead linesizemax s = some r

/-- A call from scratch returns `r`. -/
abbrev ConvFileReturns (host : Endian) (e : Env) (ic : Iconv σ) (cd : σ) (inoffset : Nat)
    (outhead : List UInt8) (linesizemax : UInt32) (r : FileResult) : Prop :=
  ConvFileReturnsFrom host e ic cd inoffset outhead linesizemax Sys.init r

/-- More fuel changes no result. -/
theorem convdConvFile_mono {host : Endian} {e : Env} {ic : Iconv σ} {cd : σ} {inoffset : Nat}
    {outhead : List UInt8} {linesizemax : UInt32} {s : Sys} {r : FileResult} {n m : Nat}
    (hnm : n ≤ m) (h : convdConvFile host e ic n cd inoffset outhead linesizemax s = some r) :
    convdConvFile host e ic m cd inoffset outhead linesizemax s = some r := by
  simp only [convdConvFile] at h ⊢
  split at h
  · exact h
  · split at h
    · exact h
    · split_ifs at h ⊢
      · exact h
      · exact run_mono hnm h
      · exact h
      · exact run_mono hnm h

/-- A call returns one result. -/
theorem ConvFileReturnsFrom.unique {host : Endian} {e : Env} {ic : Iconv σ} {cd : σ}
    {inoffset : Nat} {outhead : List UInt8} {linesizemax : UInt32} {s : Sys} {r r' : FileResult}
    (h : ConvFileReturnsFrom host e ic cd inoffset outhead linesizemax s r)
    (h' : ConvFileReturnsFrom host e ic cd inoffset outhead linesizemax s r') : r = r' :=
  unique_of_mono convdConvFile_mono h h'

/-! ## Events -/

/-- An event is no failure. -/
def Event.ok : Event → Bool
  | .call _ ok => ok
  | .readNext _ | .convText _ => true

/-- The operations whose result is not looked at.  A seek to -1 fails with what was
asked for. -/
def Event.dropped : Event → Bool
  | .call (.read .header _) _ | .call .create _ | .call (.seekCur _) _ => true
  | .call (.seekSet distance) _ => distance == -1
  | _ => false

/-- The texts that were handed to `convd_conv_text`. -/
def handed (evs : List Event) : List (List UInt8) :=
  evs.filterMap fun
    | .convText input => some input
    | _ => none

/-- No event of the list is a failure. -/
def AllOk (evs : List Event) : Prop := ∀ ev ∈ evs, ev.ok = true

/-- The operations whose result is dropped went well. -/
def DroppedOk (evs : List Event) : Prop := ∀ ev ∈ evs, ev.dropped = true → ev.ok = true

/-- An operation whose result is looked at failed. -/
def NoticedFails (evs : List Event) : Prop := ∃ ev ∈ evs, ev.dropped = false ∧ ev.ok = false

instance (evs : List Event) : Decidable (AllOk evs) :=
  inferInstanceAs (Decidable (∀ ev ∈ evs, ev.ok = true))

instance (evs : List Event) : Decidable (DroppedOk evs) :=
  inferInstanceAs (Decidable (∀ ev ∈ evs, ev.dropped = true → ev.ok = true))

/-! ## One line -/

/-- What the body of the loop comes to. -/
inductive ChunkOutcome (e : Env) (ic : Iconv σ) (cpos : ConvPosition) (cd : σ)
    (outfdsize : Nat) (input : List UInt8) (s : Sys) : Turn (LoopState σ) FileResult → Prop where
  | refused (t : Nat) (evs : List Event) : ic.text cd input (cpos.linesize * 4).toNat = none →
      ConvFails input evs →
      ChunkOutcome e ic cpos cd outfdsize input s (.leave ⟨convdErrIconv, none,
        closeBoth { s with tick := t, log := s.log ++ .call .usePos true :: evs }⟩)
  | writeFails (out : List UInt8) (k t : Nat) (evs : List Event) :
      ic.text cd input (cpos.linesize * 4).toNat = some out →
      TransferFails .write evs → (∃ t, e.fails t = true) →
      ChunkOutcome e ic cpos cd outfdsize input s (.leave ⟨convdErrFile, none,
        closeBoth { s with tick := t, out := s.out ++ out.take k,
                           log := s.log ++ .call .usePos true :: (convCalls input ++ evs) }⟩)
  | written (out : List UInt8) (m : Mem UInt8) (cd' : σ) (t : Nat) (evs : List Event) :
      ic.text cd input (cpos.linesize * 4).toNat = some out → Transfers .write evs →
      ChunkOutcome e ic cpos cd outfdsize input s (.again ⟨{ cpos with linebuf := m }, cd',
        (outfdsize + out.length) % 2 ^ 64,
        { s with tick := t, out := s.out ++ out,
                 log := s.log ++ .call .usePos true :: (convCalls input ++ evs) }⟩)

theorem take_toUb4 {l : List UInt8} (h : l.length < 2 ^ 32) : l.take (toUb4 l.length) = l := by
  rw [toUb4_of_lt h, List.take_length]

theorem convChunk_outcome (e : Env) (ic : Iconv σ) (cpos : ConvPosition) (cd : σ)
    (outfdsize : Nat) (ret : Int) (s : Sys) :
    ChunkOutcome e ic cpos cd outfdsize (cpos.linebuf.load 0 ret.toNat) s
      (convChunk e ic cpos cd outfdsize ret s) := by
  have hlog : ∀ evs, s.log ++ [.call .usePos true] ++ evs = s.log ++ .call .usePos true :: evs :=
    fun evs => List.append_assoc _ _ _
  rcases convdConvText_cases ic cd (cpos.linebuf.load 0 ret.toNat) (cpos.linesize * 4).toNat
      (s.did .usePos true) with
    ⟨out, cd', t, htext, hconv⟩ | ⟨cd', t, evs, htext, hfails, hconv⟩
  · have hlen : out.length < 2 ^ 32 :=
      Nat.lt_of_le_of_lt (Iconv.length_text_le htext) (cpos.linesize * 4).toNat_lt
    have hcall : convdConvText ic cd (cpos.linebuf.load 0 ret.toNat) (cpos.linesize * 4).toNat
        (s.did .usePos true) = (some out, cd', { s with
          tick := t,
          log := s.log ++ .call .usePos true :: convCalls (cpos.linebuf.load 0 ret.toNat) }) := by
      rw [hconv, ← hlog]
      rfl
    have hcat : ∀ evs' evs'', s.log ++ .call .usePos true :: evs' ++ evs''
        = s.log ++ .call .usePos true :: (evs' ++ evs'') := fun _ _ => List.append_assoc _ _ _
    simp only [convChunk, hcall, take_toUb4 hlen]
    rcases fileWritebytes_cases e out { s with
        tick := t,
        log := s.log ++ .call .usePos true :: convCalls (cpos.linebuf.load 0 ret.toNat) } with
      ⟨t', evs, hevs, hwrite⟩ | ⟨k, t', evs, hevs, hfault, hwrite⟩
    · simp only [hwrite, hcat]
      exact .written out _ _ _ _ htext hevs
    · simp only [hwrite, hcat, if_true]
      exact .writeFails out _ _ _ htext hevs hfault
  · simp only [convChunk, hconv]
    have := @ChunkOutcome.refused σ e ic cpos cd outfdsize _ s t evs htext hfails
    rw [← hlog] at this
    exact this

/-! ## The call up to the loop -/

/-- Where the seek over `inoffset` leaves the file, and whether it went well. -/
inductive SkipOutcome (e : Env) (inoffset pos : Nat) : Bool → Nat → Prop where
  | skipped : 0 ≤ (pos : Int) + toSb8 inoffset → (pos : Int) + toSb8 inoffset < 2 ^ 63 →
      SkipOutcome e inoffset pos true ((pos : Int) + toSb8 inoffset).toNat
  | fails : (∃ t, e.fails t = true) ∨ (pos : Int) + toSb8 inoffset < 0 ∨
        2 ^ 63 ≤ (pos : Int) + toSb8 inoffset →
      SkipOutcome e inoffset pos false pos

/-- What a call comes to: it returns before the loop, or it is the loop. -/
inductive CallOutcome (host : Endian) (e : Env) (ic : Iconv σ) (cd : σ) (inoffset : Nat)
    (outhead : List UInt8) (linesizemax : UInt32) (s : Sys) : (Nat → Option FileResult) → Prop where
  | openFails (ret : Int) (s' : Sys) : OpenOutcome e linesizemax s (.error ret, s') →
      CallOutcome host e ic cd inoffset outhead linesizemax s (fun _ => some ⟨ret, none, s'⟩)
  | createFails (cpos : ConvPosition) (s' : Sys) :
      OpenOutcome e linesizemax s (.ok cpos, s') → e.fails s'.tick = true →
      CallOutcome host e ic cd inoffset outhead linesizemax s
        (fun _ => some ⟨convdNoerror, none, ucsFileReadClose (s'.did .create false)⟩)
  | headFails (cpos : ConvPosition) (s' : Sys) (k t : Nat) (evs : List Event) :
      OpenOutcome e linesizemax s (.ok cpos, s') → TransferFails .write evs →
      (∃ t, e.fails t = true) →
      CallOutcome host e ic cd inoffset outhead linesizemax s
        (fun _ => some ⟨convdErrFile, none, closeBoth { s' with
          tick := t, out := (outhead.take (toUb4 outhead.length)).take k,
          log := s'.log ++ .call .create true :: evs }⟩)
  | loop (cpos : ConvPosition) (s' : Sys) (ok : Bool) (pos t : Nat) (evs : List Event) :
      OpenOutcome e linesizemax s (.ok cpos, s') → Transfers .write evs →
      SkipOutcome e inoffset s'.pos ok pos →
      CallOutcome host e ic cd inoffset outhead linesizemax s
        (fun fuel => run (convTurn host e ic) fuel
          ⟨{ cpos with offset := toSb8 (cpos.offset + inoffset) }, cd, 0, { s' with
            tick := t, pos := pos, out := outhead.take (toUb4 outhead.length),
            log := s'.log ++ .call .create true ::
              (evs ++ [.call .usePos true, .call (.seekCur (toSb8 inoffset)) ok]) }⟩)

/-- The head goes out, or a write failed. -/
theorem writeHead_cases (e : Env) (outhead : List UInt8) (s : Sys) :
    (∃ t evs, Transfers .write evs ∧
      (if outhead.length ≠ 0 then fileWritebytes e (outhead.take (toUb4 outhead.length)) s
        else (0, s)) =
        (0, { s with tick := t, out := s.out ++ outhead.take (toUb4 outhead.length),
                     log := s.log ++ evs })) ∨
    (∃ k t evs, TransferFails .write evs ∧ (∃ t, e.fails t = true) ∧
      (if outhead.length ≠ 0 then fileWritebytes e (outhead.take (toUb4 outhead.length)) s
        else (0, s)) =
        (-1, { s with tick := t, out := s.out ++ (outhead.take (toUb4 outhead.length)).take k,
                      log := s.log ++ evs })) := by
  by_cases hne : outhead.length ≠ 0
  · rw [if_pos hne]
    exact fileWritebytes_cases e _ s
  · have hnil : outhead = [] := List.length_eq_zero_iff.mp (not_not.mp hne)
    refine .inl ⟨s.tick, [], .nil, ?_⟩
    rw [if_neg hne, hnil, List.take_nil, List.append_nil, List.append_nil]

theorem convdConvFile_outcome (host : Endian) (e : Env) (ic : Iconv σ) (cd : σ) (inoffset : Nat)
    (outhead : List UInt8) (linesizemax : UInt32) (s : Sys) :
    CallOutcome host e ic cd inoffset outhead linesizemax s
      (fun fuel => convdConvFile host e ic fuel cd inoffset outhead linesizemax s) := by
  have hopen := ucsFileReadOpen_outcome e linesizemax s
  rcases hres : ucsFileReadOpen e linesizemax s with ⟨ret | cpos, s'⟩
  · rw [hres] at hopen
    simp only [convdConvFile, hres]
    exact .openFails ret s' hopen
  · rw [hres] at hopen
    rcases hfail : e.fails s'.tick with _ | _
    · have hcreate : fileWriteNew e s' = (true, { s'.did .create true with out := [] }) := by
        rw [fileWriteNew, hfail]
        rfl
      have hcat : ∀ evs, s'.log ++ [.call .create true] ++ evs
          = s'.log ++ .call .create true :: evs := fun _ => List.append_assoc _ _ _
      rcases writeHead_cases e outhead { s'.did .create true with out := [] } with
        ⟨t, evs, hevs, hwrite⟩ | ⟨k, t, evs, hevs, hfault, hwrite⟩
      · have hhead : (0 : Int) ≠ -1 := by decide
        have hskipped : ∀ evs ok, s'.log ++ .call .create true ::
              (evs ++ [.call .usePos true, .call (.seekCur (toSb8 inoffset)) ok])
            = s'.log ++ [.call .create true] ++ evs ++ [.call .usePos true]
                ++ [.call (.seekCur (toSb8 inoffset)) ok] := by
          intro evs ok
          simp only [List.append_assoc, List.cons_append, List.nil_append]
        simp only [convdConvFile, hres, hcreate, hwrite, if_neg hhead, fileSeekCur]
        rcases e.seek_cases (.seekCur (toSb8 inoffset)) (s'.pos + toSb8 inoffset)
            (Sys.did ⟨t, s'.pos, outhead.take (toUb4 outhead.length),
              s'.log ++ [.call .create true] ++ evs⟩ .usePos true) with
          ⟨h0, hlt, hseek⟩ | ⟨hfault, hseek⟩
        · have := @CallOutcome.loop σ host e ic cd inoffset outhead linesizemax s cpos s' true _
            (t + 2) evs hopen hevs (.skipped h0 hlt)
          rw [hskipped] at this
          simp only [Sys.did, List.nil_append] at hseek ⊢
          rw [hseek]
          exact this
        · have hfault' : (∃ t, e.fails t = true) ∨ (s'.pos : Int) + toSb8 inoffset < 0 ∨
              2 ^ 63 ≤ (s'.pos : Int) + toSb8 inoffset := hfault.imp_left fun h => ⟨_, h⟩
          have := @CallOutcome.loop σ host e ic cd inoffset outhead linesizemax s cpos s' false _
            (t + 2) evs hopen hevs (.fails hfault')
          rw [hskipped] at this
          simp only [Sys.did, List.nil_append] at hseek ⊢
          rw [hseek]
          exact this
      · simp only [convdConvFile, hres, hcreate, hwrite, if_true]
        have := @CallOutcome.headFails σ host e ic cd inoffset outhead linesizemax s cpos s' k t evs
          hopen hevs hfault
        rw [← hcat] at this
        exact this
    · have hcreate : fileWriteNew e s' = (false, s'.did .create false) := by
        rw [fileWriteNew, if_pos hfail]
      simp only [convdConvFile, hres, hcreate]
      exact .createFails cpos s' hopen hfail

end Convd
