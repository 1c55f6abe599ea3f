/-
# `Convd.ConvRun` — runs of `convd_conv_file`

The reader over-reads and seeks back, and between two turns the code's `offset` and the
file agree (`Aligned`), except after a line buffer was found insufficient (`Reading`).
Along a file that is cut into lines (`Lines`) the loop hands over exactly these lines,
and leaves in one of three ways (`RunOutcome`):

    done        all lines converted and written                   `CONVD_NOERROR`
    refused     a line refused, those before it written           `CONVD_ERR_ICONV`
    fileFails   an operation failed, some of the lines handed     `CONVD_ERR_FILE`
-/
import Convd.ConvTurn

namespace Convd

open Loop

variable {σ : Type}

/-! ## Where the reader is -/

/-- The code believes the file to stand at `off`, and it stands at `pos`, having been read
ahead or not; the reader has the mark and the size it was opened with. -/
structure Reading (bom : UcsBom) (L : UInt32) (off pos : Nat) (st : LoopState σ) : Prop where
  bom_eq : st.cpos.bom = bom
  linesize_eq : st.cpos.linesize = L
  linesize_ne : L ≠ 0xFFFFFFFF
  offset_eq : st.cpos.offset = off
  pos_eq : st.sys.pos = pos
  off_le : off ≤ pos
  pos_lt : pos < 2 ^ 63
  outfdsize_lt : st.outfdsize < 2 ^ 64

/-- The file stands where the code believes it to. -/
abbrev Aligned (bom : UcsBom) (L : UInt32) (pos : Nat) (st : LoopState σ) : Prop :=
  Reading bom L pos pos st

section Reading

variable {host : Endian} {e : Env} {bom : UcsBom} {L : UInt32} {off pos : Nat} {st : LoopState σ}

theorem Reading.stop_of_lt (h : Reading bom L off pos st) {bytes : List UInt8}
    (hlt : off + bytes.length < 2 ^ 63) : st.cpos.stop bytes = (off + bytes.length : Nat) := by
  rw [ConvPosition.stop, h.offset_eq]
  exact toSb8_of_lt (by omega) (by omega)

/-- The next line ends inside the file. -/
theorem Reading.stop_eq (h : Reading bom L off pos st) {bytes : List UInt8}
    (hline : nextLine host bom L.toNat (e.file.drop pos) = .line bytes) :
    st.cpos.stop bytes = (off + bytes.length : Nat) ∧ off + bytes.length < 2 ^ 63 := by
  have hlen := length_le_of_nextLine hline
  have hfile := e.file_lt
  have hoff := h.off_le
  have hpos := h.pos_lt
  rw [List.length_drop] at hlen
  have hlt : off + bytes.length < 2 ^ 63 := by omega
  exact ⟨h.stop_of_lt hlt, hlt⟩

theorem Reading.nextLine_eq (h : Reading bom L off pos st) :
    nextLine host st.cpos.bom st.cpos.linesize.toNat (e.file.drop st.sys.pos)
      = nextLine host bom L.toNat (e.file.drop pos) := by
  rw [h.bom_eq, h.linesize_eq, h.pos_eq]

/-- A turn gives up on the file only when an operation failed. -/
theorem Reading.fault (h : Reading bom L off pos st)
    (hfault : (∃ t, e.fails t = true) ∨ ∃ bytes, st.cpos.stop bytes < 0 ∧
      nextLine host st.cpos.bom st.cpos.linesize.toNat (e.file.drop st.sys.pos) = .line bytes) :
    ∃ t, e.fails t = true := by
  rcases hfault with hfault | ⟨bytes, hneg, hline⟩
  · exact hfault
  · rw [h.nextLine_eq] at hline
    obtain ⟨hstop, -⟩ := h.stop_eq hline
    omega

/-- A chunk is the next line, and then `offset` and the file agree; unless the line buffer
was found insufficient, and then the file was read ahead. -/
theorem Reading.chunk (h : Reading bom L off pos st) {input : List UInt8} {offset : Int}
    {pos' : Nat} {evs : List Event}
    (hfrom : ChunkFrom host e st.cpos st.sys input offset pos' evs) :
    (nextLine host bom L.toNat (e.file.drop pos) = .line input ∧ input ≠ [] ∧ AllOk evs ∧
      offset = (off + input.length : Nat) ∧ pos' = off + input.length) ∨
    (nextLine host bom L.toNat (e.file.drop pos) = .insuff ∧ input.length = 5 ∧
      offset = off ∧ pos' = pos + ((e.file.drop pos).take L.toNat).length ∧
      ∃ evs', evs = evs' ++ [.readNext convdErrInsuff] ∧ AllOk evs') := by
  cases hfrom with
  | line evs hline hne h0 hok =>
      rw [h.nextLine_eq] at hline
      obtain ⟨hstop, -⟩ := h.stop_eq hline
      rw [hstop]
      exact .inl ⟨hline, hne, hok, rfl, rfl⟩
  | lost evs hline hne hlost hquiet =>
      rw [h.nextLine_eq] at hline
      obtain ⟨hstop, -⟩ := h.stop_eq hline
      rw [hstop] at hlost
      omega
  | insuff evs hins hlen hok =>
      rw [h.nextLine_eq] at hins
      exact .inr ⟨hins, hlen, h.offset_eq, by rw [h.pos_eq, h.linesize_eq], evs, rfl, hok⟩

/-- With a line ahead, the chunk is this line. -/
theorem Reading.chunk_of_line (h : Reading bom L off pos st) {bytes input : List UInt8}
    {offset : Int} {pos' : Nat} {evs : List Event}
    (hline : nextLine host bom L.toNat (e.file.drop pos) = .line bytes)
    (hfrom : ChunkFrom host e st.cpos st.sys input offset pos' evs) :
    input = bytes ∧ AllOk evs ∧ offset = (off + bytes.length : Nat) ∧
      pos' = off + bytes.length := by
  rcases h.chunk hfrom with ⟨hline', -, hok, hoff, hpos⟩ | ⟨hins, -⟩
  · obtain rfl : input = bytes := Line.line.inj (hline'.symm.trans hline)
    exact ⟨rfl, hok, hoff, hpos⟩
  · exact nomatch hins.symm.trans hline

/-- At the end there is none. -/
theorem Reading.not_chunk (h : Reading bom L off pos st)
    (hend : nextLine host bom L.toNat (e.file.drop pos) = .finished ∨
      nextLine host bom L.toNat (e.file.drop pos) = .line []) {input : List UInt8} {offset : Int}
    {pos' : Nat} {evs : List Event} : ¬ ChunkFrom host e st.cpos st.sys input offset pos' evs := by
  intro hfrom
  rcases h.chunk hfrom with ⟨hline, hne, -⟩ | ⟨hins, -⟩
  · rcases hend with hend | hend
    · exact nomatch hline.symm.trans hend
    · exact hne (Line.line.inj (hline.symm.trans hend))
  · rcases hend with hend | hend <;> exact nomatch hins.symm.trans hend

/-- Behind a line the code and the file agree. -/
theorem Reading.next (h : Reading bom L off pos st) {bytes : List UInt8} {st' : LoopState σ}
    {size : Nat} (hline : nextLine host bom L.toNat (e.file.drop pos) = .line bytes)
    (hbom : st'.cpos.bom = st.cpos.bom) (hsize : st'.cpos.linesize = st.cpos.linesize)
    (hoff : st'.cpos.offset = (off + bytes.length : Nat)) (hpos : st'.sys.pos = off + bytes.length)
    (hfd : st'.outfdsize = size % 2 ^ 64) : Aligned bom L (off + bytes.length) st' where
  bom_eq := hbom.trans h.bom_eq
  linesize_eq := hsize.trans h.linesize_eq
  linesize_ne := h.linesize_ne
  offset_eq := hoff
  pos_eq := hpos
  off_le := Nat.le_refl _
  pos_lt := (h.stop_eq hline).2
  outfdsize_lt := hfd ▸ Nat.mod_lt _ (by decide)

end Reading

/-! ## Sizes and marks -/

theorem isText_of_bom {bom : UcsBom} (h : bom = .noneBom ∨ bom = .utf8Bom) :
    isText bom = true := by
  rcases h with rfl | rfl <;> rfl

theorem ne_ask_of_bom {bom : UcsBom} (h : bom = .noneBom ∨ bom = .utf8Bom) :
    bom ≠ .utf8BomAsk := by
  rcases h with rfl | rfl <;> exact UcsBom.noConfusion

/-- The output region of the buffer is four times the size of a line. -/
theorem toNat_room {L : UInt32} (h : 5 * L.toNat < 2 ^ 32) : (L * 4).toNat = 4 * L.toNat := by
  rw [toNat_mul_four]
  omega

theorem ne_of_fits {L : UInt32} (h : 5 * L.toNat < 2 ^ 32) : L ≠ 0xFFFFFFFF := by
  rintro rfl
  exact absurd h (by decide)

/-! ## Along the lines -/

/-- The converter, in some state, makes `out` of a text in the room the output buffer has. -/
def Converts (ic : Iconv σ) (L : UInt32) (input out : List UInt8) : Prop :=
  ∃ cd, ic.text cd input (L * 4).toNat = some out

/-- The converter, in some state, refuses a text. -/
def Refuses (ic : Iconv σ) (L : UInt32) (input : List UInt8) : Prop :=
  ∃ cd, ic.text cd input (L * 4).toNat = none

/-- What the loop comes to from `s`, along the lines ahead. -/
inductive RunOutcome (e : Env) (ic : Iconv σ) (L : UInt32) (lines : List (List UInt8))
    (outfdsize : Nat) (s : Sys) : FileResult → Prop where
  | done (outs : List (List UInt8)) (s' : Sys) (evs : List Event) :
      List.Forall₂ (Converts ic L) lines outs → s'.log = s.log ++ evs → AllOk evs →
      handed evs = lines → s'.out = s.out ++ outs.flatten →
      RunOutcome e ic L lines outfdsize s ⟨convdNoerror,
        some ((outfdsize + outs.flatten.length) % 2 ^ 64), s'⟩
  | refused (before after outs : List (List UInt8)) (input : List UInt8) (s' : Sys)
      (evs : List Event) :
      lines = before ++ input :: after → List.Forall₂ (Converts ic L) before outs →
      Refuses ic L input → s'.log = s.log ++ evs → NoticedFails evs →
      handed evs = before ++ [input] → s'.out = s.out ++ outs.flatten →
      RunOutcome e ic L lines outfdsize s ⟨convdErrIconv, none, s'⟩
  | fileFails (s' : Sys) (evs : List Event) :
      (∃ t, e.fails t = true) → s'.log = s.log ++ evs → NoticedFails evs →
      handed evs <+: lines →
      RunOutcome e ic L lines outfdsize s ⟨convdErrFile, none, s'⟩

/-- A line converted and written, then the rest. -/
theorem RunOutcome.cons {e : Env} {ic : Iconv σ} {L : UInt32} {lines : List (List UInt8)}
    {outfdsize : Nat} {s s' : Sys} {r : FileResult} {input out : List UInt8} {evs : List Event}
    (hconv : Converts ic L input out) (hlog : s'.log = s.log ++ evs) (hok : AllOk evs)
    (hhanded : handed evs = [input]) (hout : s'.out = s.out ++ out)
    (h : RunOutcome e ic L lines ((outfdsize + out.length) % 2 ^ 64) s' r) :
    RunOutcome e ic L (input :: lines) outfdsize s r := by
  have hcat : ∀ {l evs' : List Event}, l = s'.log ++ evs' → l = s.log ++ (evs ++ evs') := by
    intro l evs' h
    rw [h, hlog, List.append_assoc]
  have hcatout : ∀ {l : List UInt8} {outs : List (List UInt8)}, l = s'.out ++ outs.flatten →
      l = s.out ++ (out :: outs).flatten := by
    intro l outs h
    rw [h, hout, List.append_assoc, List.flatten_cons]
  cases h with
  | done outs s'' evs' hall hlog' hok' hlines hout' =>
      have := @RunOutcome.done σ e ic L (input :: lines) outfdsize s (out :: outs) s''
        (evs ++ evs') (.cons hconv hall) (hcat hlog') (allOk_append.mpr ⟨hok, hok'⟩)
        (by rw [handed_append, hhanded, hlines, List.singleton_append]) (hcatout hout')
      rwa [List.flatten_cons, List.length_append, ← Nat.add_assoc, ← Nat.mod_add_mod] at this
  | refused before after outs input' s'' evs' hsplit hall href hlog' hfails hhanded' hout' =>
      refine .refused (input :: before) after (out :: outs) input' s'' _ (by rw [hsplit]; rfl)
        (.cons hconv hall) href (hcat hlog') (noticedFails_append.mpr (.inr hfails)) ?_
        (hcatout hout')
      rw [handed_append, hhanded, hhanded']
      rfl
  | fileFails s'' evs' hfault hlog' hfails hprefix =>
      refine .fileFails s'' _ hfault (hcat hlog') (noticedFails_append.mpr (.inr hfails)) ?_
      rw [handed_append, hhanded]
      exact List.cons_prefix_cons.mpr ⟨rfl, hprefix⟩

section Run

variable {host : Endian} {e : Env} {ic : Iconv σ} {bom : UcsBom} {L : UInt32}

/-- The loop along the lines ahead: a turn a line. -/
theorem returns_of_lines {ahead left : List UInt8} {lines : List (List UInt8)}
    (h : Lines host bom L.toNat ahead lines left) : ∀ {pos : Nat} {st : LoopState σ},
    Aligned bom L pos st → e.file.drop pos = ahead →
    ∃ r, Returns (convTurn host e ic) st r ∧ RunOutcome e ic L lines st.outfdsize st.sys r := by
  induction h with
  | ended hend =>
      intro pos st hst hahead
      subst hahead
      have hturn := @convTurn_outcome σ host e ic st (hst.linesize_eq ▸ hst.linesize_ne)
      generalize hres : convTurn host e ic st = turn at hturn
      cases hturn with
      | fileFails s' evs hlog hout hfails hnone hfault => exact
          ⟨_, .leave hres, .fileFails _ _ (hst.fault hfault) hlog hfails (hnone ▸ List.nil_prefix)⟩
      | finished s' evs hlog hout hquiet hok hnone hfin =>
          have hstop : 0 ≤ st.cpos.stop [] := by
            have hnil : pos + ([] : List UInt8).length < 2 ^ 63 := hst.pos_lt
            rw [hst.stop_of_lt hnil]
            exact Int.natCast_nonneg _
          have := @RunOutcome.done σ e ic L [] st.outfdsize st.sys [] s' evs .nil hlog (hok hstop)
            hnone (by rw [hout, List.flatten_nil, List.append_nil])
          rw [List.flatten_nil, List.length_nil, Nat.add_zero,
            Nat.mod_eq_of_lt hst.outfdsize_lt] at this
          exact ⟨_, .leave hres, this⟩
      | refused _ _ _ _ _ _ hfrom => exact absurd hfrom (hst.not_chunk hend)
      | writeFails _ _ _ _ _ _ _ _ hfrom => exact absurd hfrom (hst.not_chunk hend)
      | written _ _ _ _ _ hfrom => exact absurd hfrom (hst.not_chunk hend)
  | @line ahead bytes left lines hline hne hrest ih =>
      intro pos st hst hahead
      subst hahead
      have hturn := @convTurn_outcome σ host e ic st (hst.linesize_eq ▸ hst.linesize_ne)
      generalize hres : convTurn host e ic st = turn at hturn
      cases hturn with
      | fileFails s' evs hlog hout hfails hnone hfault => exact
          ⟨_, .leave hres, .fileFails _ _ (hst.fault hfault) hlog hfails (hnone ▸ List.nil_prefix)⟩
      | finished s' evs hlog hout hquiet hok hnone hfin =>
          rw [hst.nextLine_eq] at hfin
          rcases hfin with hfin | hfin
          · exact nomatch hline.symm.trans hfin
          · exact absurd (Line.line.inj (hline.symm.trans hfin)) hne
      | refused input offset pos' s' evs evs' hfrom hnone htext hfails hlog hout =>
          obtain ⟨rfl, hok, -, -⟩ := hst.chunk_of_line hline hfrom
          rw [hst.linesize_eq] at htext
          refine ⟨_, .leave hres, .refused [] lines [] input s' _ rfl .nil ⟨_, htext⟩ hlog ?_ ?_ ?_⟩
          · simp [hfails.noticed]
          · simp [hnone, hfails.handed]
          · rw [hout, List.flatten_nil, List.append_nil]
      | writeFails input out offset pos' k s' evs evs' hfrom hnone htext hevs hfault hlog hout =>
          obtain ⟨rfl, hok, -, -⟩ := hst.chunk_of_line hline hfrom
          refine ⟨_, .leave hres, .fileFails _ _ hfault hlog ?_ ?_⟩
          · simp [hevs.noticed fun _ => rfl]
          · simp [hnone, hevs.handed]
      | written input out st' evs evs' hfrom hnone htext hevs hbom hsize hfd hlog hout =>
          obtain ⟨rfl, hok, hoff, hpos⟩ := hst.chunk_of_line hline hfrom
          rw [hst.linesize_eq] at htext
          have hst' : Aligned bom L (pos + input.length) st' :=
            hst.next hline hbom hsize hoff hpos hfd
          obtain ⟨r, hret, hrun⟩ := ih hst' List.drop_drop.symm
          rw [hfd] at hrun
          refine ⟨r, .again hres hret, hrun.cons ⟨_, htext⟩ hlog ?_ ?_ hout⟩
          · simp [hok, hevs.allOk, Event.ok]
          · simp [hnone, hevs.handed]

end Run

/-! ## Every run ends -/

/-- An offset that is not past where a line ends, unless the sum has wrapped to below -1. -/
theorem ConvPosition.lt_stop {cpos : ConvPosition} {bytes : List UInt8}
    (hlow : -2 ^ 63 ≤ cpos.offset) (hhigh : cpos.offset < 2 ^ 63) (hne : bytes ≠ [])
    (hlen : bytes.length < 2 ^ 63) (hstop : -1 ≤ cpos.stop bytes) :
    cpos.offset < cpos.stop bytes := by
  have hpos := List.length_pos_iff.mpr hne
  rw [ConvPosition.stop] at hstop ⊢
  generalize hsum : cpos.offset + bytes.length = sum at hstop ⊢
  rcases Int.lt_or_le sum (2 ^ 63) with hlt | hge
  · have : toSb8 sum = sum := Int.bmod_eq_of_le (by omega) (by omega)
    omega
  · have hwrap : toSb8 sum = sum - (2 ^ 64 : Nat) := by
      rw [toSb8, ← Int.sub_bmod_right]
      exact Int.bmod_eq_of_le (by omega) (by omega)
    omega

/-- What a turn that goes round again has moved.  After a line `offset` and the file stand
together, behind where `offset` stood; when the seek back was lost `offset` is -1, and was less
than that; a buffer found insufficient leaves `offset` where it is, and the file further on. -/
inductive Moved (e : Env) (st st' : LoopState σ) : Prop where
  | line : st.sys.pos < e.file.length → st.cpos.offset < st'.cpos.offset →
      st'.cpos.offset = st'.sys.pos → Moved e st st'
  | lost : st.cpos.offset < -1 → st'.cpos.offset = -1 → Moved e st st'
  | insuff : st'.cpos.offset = st.cpos.offset → st.sys.pos < st'.sys.pos →
      st'.sys.pos ≤ e.file.length → Moved e st st'

/-- An `offset` in its range. -/
structure InRange (st : LoopState σ) : Prop where
  linesize_ne : st.cpos.linesize ≠ 0xFFFFFFFF
  low : -2 ^ 63 ≤ st.cpos.offset
  high : st.cpos.offset < 2 ^ 63

theorem InRange.again {host : Endian} {e : Env} {ic : Iconv σ} {st st' : LoopState σ}
    (h : InRange st) (hagain : convTurn host e ic st = .again st') :
    InRange st' ∧ Moved e st st' := by
  have hturn := @convTurn_outcome σ host e ic st h.linesize_ne
  rw [hagain] at hturn
  cases hturn with
  | written input out st' evs evs' hfrom _ _ _ _ hsize _ _ _ =>
      have hL := hsize ▸ h.linesize_ne
      have hlen : ∀ {bytes : List UInt8}, nextLine host st.cpos.bom st.cpos.linesize.toNat
          (e.file.drop st.sys.pos) = .line bytes →
          bytes.length ≤ e.file.length - st.sys.pos ∧ bytes.length < 2 ^ 63 := by
        intro bytes hline
        have hle := length_le_of_nextLine hline
        rw [List.length_drop] at hle
        exact ⟨hle, Nat.lt_of_le_of_lt (Nat.le_trans hle (Nat.sub_le _ _)) e.file_lt⟩
      generalize hoff : st'.cpos.offset = off at hfrom
      generalize hpos : st'.sys.pos = pos at hfrom
      cases hfrom with
      | line evs hline hne h0 _ =>
          obtain ⟨hle, hlt⟩ := hlen hline
          have hstop := ConvPosition.lt_stop h.low h.high hne hlt (by omega)
          have hbytes := List.length_pos_iff.mpr hne
          refine ⟨⟨hL, hoff ▸ le_toSb8 _, hoff ▸ toSb8_lt _⟩, .line (by omega) (hoff ▸ hstop) ?_⟩
          rw [hoff, hpos, Int.toNat_of_nonneg h0]
      | lost evs hline hne hlost _ =>
          have hstop := ConvPosition.lt_stop h.low h.high hne (hlen hline).2 (by omega)
          rw [hlost] at hstop
          exact ⟨⟨hL, by omega, by omega⟩, .lost hstop hoff⟩
      | insuff evs hins _ _ =>
          have hread := List.length_pos_iff.mpr (take_ne_nil_of_insuff hins)
          have hle := List.length_take_le' st.cpos.linesize.toNat (e.file.drop st.sys.pos)
          rw [List.length_drop] at hle
          exact ⟨⟨hL, hoff ▸ h.low, hoff ▸ h.high⟩, .insuff hoff (by omega) (by omega)⟩

/-- How many lines `offset` can still be moved by: it passes -1 and each place of the file. -/
def linesLeft (e : Env) (offset : Int) : Nat :=
  if offset < -1 then e.file.length + 3 else (e.file.length + 1 - offset).toNat

theorem linesLeft_le (e : Env) (offset : Int) : linesLeft e offset ≤ e.file.length + 3 := by
  rw [linesLeft]
  split <;> omega

/-- The measure of the loop: the lines to come, and before each of them the file can be found
insufficient once for each of its bytes. -/
def turnsLeft (e : Env) (st : LoopState σ) : Nat :=
  linesLeft e st.cpos.offset * (e.file.length + 1) + (e.file.length - st.sys.pos)

theorem turnsLeft_lt_of_linesLeft {e : Env} {st st' : LoopState σ}
    (hlt : linesLeft e st'.cpos.offset < linesLeft e st.cpos.offset) :
    turnsLeft e st' < turnsLeft e st := by
  have hmul := Nat.mul_le_mul_right (e.file.length + 1) hlt
  rw [Nat.succ_mul] at hmul
  rw [turnsLeft, turnsLeft]
  omega

/-- Neither `offset` nor the place of the file moves one way only, but the pair does. -/
theorem Moved.turnsLeft_lt {e : Env} {st st' : LoopState σ} (h : Moved e st st') :
    turnsLeft e st' < turnsLeft e st := by
  cases h with
  | line hpos hlt hsync =>
      by_cases hend : (e.file.length : Int) < st.cpos.offset
      · -- no line was left to count, and now the file is past its end
        have hzero : ∀ {offset : Int}, (e.file.length : Int) < offset →
            linesLeft e offset = 0 := by
          intro offset hoffset
          rw [linesLeft, if_neg (by omega)]
          omega
        rw [turnsLeft, turnsLeft, hzero hend, hzero (Int.lt_trans hend hlt)]
        omega
      · apply turnsLeft_lt_of_linesLeft
        rw [linesLeft, if_neg (by omega), linesLeft]
        split <;> omega
  | lost hlow hlost =>
      apply turnsLeft_lt_of_linesLeft
      rw [linesLeft, linesLeft, if_pos hlow, hlost, if_neg (by decide)]
      omega
  | insuff hsame hlt hle =>
      rw [turnsLeft, turnsLeft, hsame]
      omega

theorem turnsLeft_lt (e : Env) (st : LoopState σ) :
    turnsLeft e st < (e.file.length + 4) * (e.file.length + 1) := by
  have hmul := Nat.mul_le_mul_right (e.file.length + 1) (linesLeft_le e st.cpos.offset)
  have hsucc : (e.file.length + 4) * (e.file.length + 1)
      = (e.file.length + 3) * (e.file.length + 1) + (e.file.length + 1) := Nat.succ_mul _ _
  rw [turnsLeft, hsucc]
  omega

/-- Wherever the code believes the file to stand, and wherever it stands, the loop makes no
more turns than the square of the file's length, about. -/
theorem run_of_inRange {host : Endian} {e : Env} {ic : Iconv σ} {st : LoopState σ}
    (h : InRange st) : ∃ r, run (convTurn host e ic)
      ((e.file.length + 4) * (e.file.length + 1)) st = some r :=
  run_of_measure (P := InRange) (turnsLeft e)
    (fun _ _ hst hagain => (hst.again hagain).imp_right Moved.turnsLeft_lt) h (turnsLeft_lt e st)

theorem returns_of_linesize {host : Endian} {e : Env} {ic : Iconv σ} {st : LoopState σ}
    (hL : st.cpos.linesize ≠ 0xFFFFFFFF) (hlow : -2 ^ 63 ≤ st.cpos.offset)
    (hhigh : st.cpos.offset < 2 ^ 63) : ∃ r, Returns (convTurn host e ic) st r := by
  obtain ⟨r, hr⟩ := @run_of_inRange σ host e ic st ⟨hL, hlow, hhigh⟩
  exact ⟨r, _, hr⟩

/-- The log only grows. -/
theorem returns_log {host : Endian} {e : Env} {ic : Iconv σ} {st : LoopState σ} {r : FileResult}
    (hL : st.cpos.linesize ≠ 0xFFFFFFFF) (h : Returns (convTurn host e ic) st r) :
    st.sys.log <+: r.sys.log := by
  obtain ⟨n, hn⟩ := h
  refine run_invariant (P := fun st' => st'.cpos.linesize ≠ 0xFFFFFFFF ∧
    st.sys.log <+: st'.sys.log) (Q := fun r => st.sys.log <+: r.sys.log) ?_ ?_
    ⟨hL, List.prefix_rfl⟩ hn
  · rintro st₁ st₂ ⟨hL₁, hlog⟩ hagain
    have hturn := @convTurn_outcome σ host e ic st₁ hL₁
    rw [hagain] at hturn
    cases hturn with
    | written input out st' evs evs' _ _ _ _ _ hsize _ hlog' _ =>
        exact ⟨hsize ▸ hL₁, hlog.trans ⟨_, hlog'.symm⟩⟩
  · rintro st₁ r₁ ⟨hL₁, hlog⟩ hleave
    have hturn := @convTurn_outcome σ host e ic st₁ hL₁
    rw [hleave] at hturn
    cases hturn with
    | fileFails s evs hlog' => exact hlog.trans ⟨_, hlog'.symm⟩
    | finished s evs hlog' => exact hlog.trans ⟨_, hlog'.symm⟩
    | refused _ _ _ s evs evs' _ _ _ _ hlog' => exact hlog.trans ⟨_, hlog'.symm⟩
    | writeFails _ _ _ _ _ s evs evs' _ _ _ _ _ hlog' => exact hlog.trans ⟨_, hlog'.symm⟩

end Convd
