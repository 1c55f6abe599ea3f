/-
# `Convd.ConvFileInsuff` — a run that does not fit the line buffer

`ucs_file_read_next` answers with `CONVD_ERR_INSUFF`, which is 5, having read the file
ahead; the loop takes the 5 for the length of a chunk and goes on from there.  Every turn
that goes round again has moved `offset`, or else the file (`Reading.turn`), so the loop
ends all the same, and in success.
-/
import Convd.ConvStart

namespace Convd

open Loop

variable {σ : Type}

/-! ## The loop ends -/

/-- What a turn makes smaller: how far `offset`, and then how far the file, is from the end. -/
def readMeasure (N off pos : Nat) : Nat := (N - off) * (N + 1) + (N - pos)

theorem readMeasure_line {N off pos len : Nat} (hoff : off ≤ pos) (hpos : pos + len ≤ N)
    (hlen : 0 < len) : readMeasure N (off + len) (off + len) < readMeasure N off pos := by
  obtain ⟨k, hk⟩ : ∃ k, N - off = N - (off + len) + (k + 1) := ⟨len - 1, by omega⟩
  have hmul : (N - off) * (N + 1) = (N - (off + len)) * (N + 1) + (k * (N + 1) + (N + 1)) := by
    rw [hk, Nat.add_mul, Nat.succ_mul]
  rw [readMeasure, readMeasure, hmul]
  omega

theorem readMeasure_insuff {N off pos len : Nat} (hpos : pos + len ≤ N) (hlen : 0 < len) :
    readMeasure N off (pos + len) < readMeasure N off pos := by
  rw [readMeasure, readMeasure]
  omega

/-- The log shows `CONVD_ERR_INSUFF` returned, and five bytes handed over for it. -/
def TakenForLength (log : List Event) : Prop :=
  ∃ input, input.length = 5 ∧
    [.readNext convdErrInsuff, .call .usePos true, .convText input] <:+: log

theorem TakenForLength.mono {log log' : List Event} (h : TakenForLength log)
    (hlog : log <+: log') : TakenForLength log' := by
  obtain ⟨input, hlen, hinfix⟩ := h
  exact ⟨input, hlen, hinfix.trans hlog.isInfix⟩

/-- Something went wrong that makes the loop report an error. -/
def Failing (e : Env) (ic : Iconv σ) (L : UInt32) : Prop :=
  (∃ t, e.fails t = true) ∨ ∃ input, input.length ≤ max 5 L.toNat ∧ Refuses ic L input

/-- What a turn that goes round again did: it converted the next line, or took the error
code for a length. -/
inductive Advance (host : Endian) (e : Env) (bom : UcsBom) (L : UInt32) (off pos : Nat)
    (log : List Event) : Nat → Nat → Prop where
  | line (bytes : List UInt8) :
      nextLine host bom L.toNat (e.file.drop pos) = .line bytes → bytes ≠ [] →
      Advance host e bom L off pos log (off + bytes.length) (off + bytes.length)
  | insuff : nextLine host bom L.toNat (e.file.drop pos) = .insuff → TakenForLength log →
      Advance host e bom L off pos log off (pos + ((e.file.drop pos).take L.toNat).length)

section Turn

variable {host : Endian} {e : Env} {ic : Iconv σ} {bom : UcsBom} {L : UInt32} {off pos : Nat}
  {st : LoopState σ}

theorem Advance.measure_lt {log : List Event} {off' pos' : Nat} (hoff : off ≤ pos)
    (h : Advance host e bom L off pos log off' pos') :
    readMeasure e.file.length off' pos' < readMeasure e.file.length off pos := by
  cases h with
  | line bytes hline hne =>
      have hlen := length_le_of_nextLine hline
      have hpos := List.length_pos_iff.mpr hne
      rw [List.length_drop] at hlen
      exact readMeasure_line hoff (by omega) hpos
  | insuff hins _ =>
      have hpos := List.length_pos_iff.mpr (take_ne_nil_of_insuff hins)
      have hlen := List.length_take_le' L.toNat (e.file.drop pos)
      rw [List.length_drop] at hlen
      exact readMeasure_insuff (by omega) hpos

variable (host e ic)

/-- A turn ends the call in success, or on a failure, or goes round again. -/
theorem Reading.turn (h : Reading bom L off pos st) :
    (∃ r, convTurn host e ic st = .leave r ∧ r.ret ≠ convdErrInsuff ∧
      (r.ret = convdNoerror ∧ (nextLine host bom L.toNat (e.file.drop pos) = .finished ∨
        nextLine host bom L.toNat (e.file.drop pos) = .line []) ∨ Failing e ic L)) ∨
    (∃ st' off' pos', convTurn host e ic st = .again st' ∧
      Reading bom L off' pos' st' ∧ Advance host e bom L off pos st'.sys.log off' pos') := by
  have hturn := @convTurn_outcome σ host e ic st (h.linesize_eq ▸ h.linesize_ne)
  have hlen : ∀ {input : List UInt8} {offset : Int} {pos' : Nat} {evs : List Event},
      ChunkFrom host e st.cpos st.sys input offset pos' evs → input.length ≤ max 5 L.toNat := by
    intro input offset pos' evs hfrom
    rcases h.chunk hfrom with ⟨hline, -⟩ | ⟨-, hlen, -⟩
    · have := length_le_take_of_nextLine hline
      have := List.length_take_le L.toNat (e.file.drop pos)
      omega
    · omega
  generalize hres : convTurn host e ic st = turn at hturn
  cases hturn with
  | fileFails s evs hlog _ _ _ hfault =>
      exact .inl ⟨_, rfl, (by decide : convdErrFile ≠ convdErrInsuff), .inr (.inl (h.fault hfault))⟩
  | finished s evs hlog _ _ _ _ hfin =>
      rw [h.nextLine_eq] at hfin
      exact .inl ⟨_, rfl, (by decide : convdNoerror ≠ convdErrInsuff), .inl ⟨rfl, hfin⟩⟩
  | refused input offset pos' s evs evs' hfrom _ htext _ hlog _ =>
      rw [h.linesize_eq] at htext
      exact .inl ⟨_, rfl, (by decide : convdErrIconv ≠ convdErrInsuff),
        .inr (.inr ⟨input, hlen hfrom, _, htext⟩)⟩
  | writeFails input out offset pos' k s evs evs' _ _ _ _ hfault hlog _ =>
      exact .inl ⟨_, rfl, (by decide : convdErrFile ≠ convdErrInsuff), .inr (.inl hfault)⟩
  | written input out st' evs evs' hfrom _ _ _ hbom hsize hfd hlog _ =>
      have hfd' : st'.outfdsize < 2 ^ 64 := hfd ▸ Nat.mod_lt _ (by decide)
      have hoff := h.off_le
      rcases h.chunk hfrom with ⟨hline, hne, -, hoff', hpos'⟩ |
        ⟨hins, hfive, hoff', hpos', evs'', hevs, -⟩
      · exact .inr ⟨st', _, _, rfl, h.next hline hbom hsize hoff' hpos' hfd, .line input hline hne⟩
      · have hread := List.length_take_le' L.toNat (e.file.drop pos)
        have hfile := e.file_lt
        have hpos := h.pos_lt
        rw [List.length_drop] at hread
        have htaken : TakenForLength st'.sys.log := by
          refine ⟨input, hfive, st.sys.log ++ evs'', .call .iconvReset true ::
            .call (.iconv input.length) true :: evs', ?_⟩
          rw [hlog, hevs]
          simp [convCalls]
        exact .inr ⟨st', _, _, rfl, ⟨hbom.trans h.bom_eq,
          hsize.trans h.linesize_eq, h.linesize_ne, hoff', hpos', by omega, by omega, hfd'⟩,
          .insuff hins htaken⟩

/-- From wherever the reader is, the loop ends. -/
theorem Reading.returns (h : Reading bom L off pos st) :
    ∃ r, Returns (convTurn host e ic) st r ∧ r.ret ≠ convdErrInsuff ∧
      (r.ret = convdNoerror ∨ Failing e ic L) := by
  have hagain : ∀ {st₁ st₂ : LoopState σ}, (∃ off pos, Reading bom L off pos st₁) →
      convTurn host e ic st₁ = .again st₂ → (∃ off pos, Reading bom L off pos st₂) ∧
        readMeasure e.file.length st₂.cpos.offset.toNat st₂.sys.pos
          < readMeasure e.file.length st₁.cpos.offset.toNat st₁.sys.pos := by
    rintro st₁ st₂ ⟨off₁, pos₁, h₁⟩ hagain
    rcases h₁.turn host e ic with ⟨r, hleave, -⟩ | ⟨st', off', pos', hagain', h', hadvance⟩
    · exact nomatch hagain.symm.trans hleave
    · obtain rfl : st₂ = st' := Turn.again.inj (hagain.symm.trans hagain')
      refine ⟨⟨off', pos', h'⟩, ?_⟩
      rw [h'.offset_eq, h'.pos_eq, h₁.offset_eq, h₁.pos_eq, Int.toNat_natCast, Int.toNat_natCast]
      exact hadvance.measure_lt h₁.off_le
  obtain ⟨r, n, hr⟩ := returns_of_measure (P := fun st => ∃ off pos, Reading bom L off pos st) _
    (fun _ _ => hagain) ⟨off, pos, h⟩
  refine ⟨r, ⟨n, hr⟩, ?_⟩
  refine run_invariant (P := fun st => ∃ off pos, Reading bom L off pos st)
    (Q := fun r => r.ret ≠ convdErrInsuff ∧ (r.ret = convdNoerror ∨ Failing e ic L))
    (fun _ _ h₁ hagain' => (hagain h₁ hagain').1) ?_ ⟨off, pos, h⟩ hr
  rintro st₁ r₁ ⟨off₁, pos₁, h₁⟩ hleave
  rcases h₁.turn host e ic with ⟨r', hleave', hne, hret⟩ | ⟨st', off', pos', hagain', -⟩
  · obtain rfl : r₁ = r' := Turn.leave.inj (hleave.symm.trans hleave')
    exact ⟨hne, hret.imp_left And.left⟩
  · exact nomatch hagain'.symm.trans hleave

/-- Along a text with a run that does not fit, the error code is taken for a length. -/
theorem Reading.returns_insuff (ht : isText bom = true) (hL : L.toNat < 2 ^ 31)
    (h0 : 0 < L.toNat) (hok : ¬ Failing e ic L) : ∀ {pos : Nat} {st : LoopState σ},
    Aligned bom L pos st → (∃ r ∈ List.runs topBit (e.file.drop pos), L.toNat ≤ r.length) →
    ∃ r, Returns (convTurn host e ic) st r ∧ r.ret = convdNoerror ∧ TakenForLength r.sys.log := by
  intro pos st h hlong
  generalize hn : (e.file.drop pos).length = n
  induction n using Nat.strongRecOn generalizing pos st with
  | ind n ih =>
      rcases hahead : e.file.drop pos with _ | ⟨b, bs⟩
      · rw [hahead] at hlong
        obtain ⟨r, hr, -⟩ := hlong
        cases hr
      · have hnext := @nextLine_text host bom _ ht hL h0 b bs
        rw [hahead, List.runs_cons] at hlong
        rw [← hahead] at hnext
        rcases h.turn host e ic with
          ⟨r, -, -, ⟨-, hfin⟩ | hfailing⟩ | ⟨st', off', pos', hagain, h', hadvance⟩
        · rw [hnext] at hfin
          split at hfin
          · rcases hfin with hfin | hfin
            · cases hfin
            · cases Line.line.inj hfin
          · rcases hfin with hfin | hfin <;> cases hfin
        · exact absurd hfailing hok
        · cases hadvance with
          | line bytes hline hne =>
              rw [hline] at hnext
              split at hnext
              · rename_i hshort
                obtain rfl := Line.line.inj hnext
                have hdrop : e.file.drop (pos + (b :: List.runTail topBit b bs).length)
                    = bs.drop (List.runTail topBit b bs).length := by
                  rw [← List.drop_drop, hahead]
                  rfl
                rw [← hdrop] at hlong
                have hrest : ∃ r ∈ List.runs topBit
                    (e.file.drop (pos + (b :: List.runTail topBit b bs).length)),
                    L.toNat ≤ r.length := by
                  obtain ⟨r, hr, hlen⟩ := hlong
                  rcases List.mem_cons.mp hr with rfl | hr
                  · exact absurd hlen (Nat.not_le.mpr hshort)
                  · exact ⟨r, hr, hlen⟩
                have hless : (e.file.drop (pos + (b :: List.runTail topBit b bs).length)).length
                    < n := by
                  rw [← hn, hdrop, hahead, List.length_drop, List.length_cons]
                  omega
                obtain ⟨r, hret, hr, htaken⟩ := ih _ hless h' hrest rfl
                exact ⟨r, .again hagain hret, hr, htaken⟩
              · cases hnext
          | insuff _ htaken =>
              obtain ⟨r, hret, -, hr⟩ := h'.returns host e ic
              have hlog := returns_log (h'.linesize_eq ▸ h'.linesize_ne) hret
              exact ⟨r, .again hagain hret, hr.resolve_right hok, htaken.mono hlog⟩

end Turn

/-! ## The call -/

section Call

variable {host : Endian} {e : Env} {ic : Iconv σ} {cd : σ} {inoffset : Nat}
  {outhead : List UInt8} {linesizemax : UInt32} {bom : UcsBom}

/-- What a call should come to when a run of `region` does not fit: the error, behind the
text before that run, and the error never taken for a length. -/
def ReportsInsuff (host : Endian) (e : Env) (ic : Iconv σ) (cd : σ) (inoffset : Nat)
    (outhead : List UInt8) (linesizemax : UInt32) (region : List UInt8) : Prop :=
  ∃ r outs, ConvFileReturns host e ic cd inoffset outhead linesizemax r ∧
    r.ret = convdErrInsuff ∧
    List.Forall₂ (Converts ic linesizemax)
      ((List.runs topBit region).takeWhile (·.length < linesizemax.toNat)) outs ∧
    r.sys.out = outhead ++ outs.flatten ∧ ¬ TakenForLength r.sys.log

/-- A call on a text with a run that does not fit never reports it: when the converter
accepts what it is given, the call returns `CONVD_NOERROR`, with the error code taken
for the length of a chunk on the way. -/
theorem convdConvFile_insuff_lost (hfiles : e.Faultless) (hbom : StartsWithBom e.file bom)
    (htext : bom = .noneBom ∨ bom = .utf8Bom) (hsize : 1 ≤ linesizemax.toNat)
    (hmax : 5 * linesizemax.toNat < 2 ^ 32)
    (hlong : ∃ r ∈ List.runs topBit (e.file.drop (bomLength bom + inoffset)),
      linesizemax.toNat ≤ r.length) :
    ¬ ReportsInsuff host e ic cd inoffset outhead linesizemax
        (e.file.drop (bomLength bom + inoffset)) ∧
      (ic.Accepts (max 5 linesizemax.toNat) (4 * linesizemax.toNat) →
        ∃ r, ConvFileReturns host e ic cd inoffset outhead linesizemax r ∧
          r.ret = convdNoerror ∧ TakenForLength r.sys.log) := by
  have hask := ne_ask_of_bom htext
  have hin : bomLength bom + inoffset < 2 ^ 63 := by
    obtain ⟨r, hr, -⟩ := hlong
    have hfile := e.file_lt
    by_contra hbig
    rw [List.drop_eq_nil_of_le (by omega)] at hr
    exact nomatch hr
  obtain ⟨st, hst, hreturns⟩ := hfiles.started host ic cd outhead linesizemax hbom hask hin
  have haligned := hst.aligned
  rw [lineSize_of_ne (ne_of_fits hmax)] at haligned
  constructor
  · rintro ⟨r, outs, hr, hinsuff, -⟩
    obtain ⟨r', hret, hne, -⟩ := haligned.returns host e ic
    rw [((hreturns r).mp hr).unique hret] at hinsuff
    exact hne hinsuff
  · intro hic
    have hok : ¬ Failing e ic linesizemax := by
      rintro (hfault | ⟨input, hlen, cd, href⟩)
      · exact hfiles.no_fault hfault
      · have haccepts := hic cd input hlen
        rw [← toNat_room hmax, href] at haccepts
        cases haccepts
    obtain ⟨r, hret, hr⟩ := haligned.returns_insuff host e ic (isText_of_bom htext) (by omega)
      hsize hok hlong
    exact ⟨r, (hreturns r).mpr hret, hr⟩

end Call

/-- Twenty letters, which are one run, in lines of eight bytes. -/
def lettersEnv : Env := .bytewise (List.replicate 20 97) (by decide) fun _ => false

theorem convdConvFile_insuff_lost_letters :
    ¬ ReportsInsuff .little lettersEnv (.ofFun fun _ => some []) () 0 [] 8
        (lettersEnv.file.drop 0) ∧
      ∃ r, ConvFileReturns .little lettersEnv (.ofFun fun _ => some []) () 0 [] 8 r ∧
        r.ret = convdNoerror ∧ TakenForLength r.sys.log := by
  have hcall := @convdConvFile_insuff_lost Unit .little lettersEnv (.ofFun fun _ => some []) () 0 []
    8 .noneBom (fun _ => rfl) (by decide) (.inl rfl) (by decide) (by decide) (by decide)
  refine ⟨hcall.1, hcall.2 fun cd input _ => ?_⟩
  rw [Iconv.implements_ofFun]
  rfl

theorem convdConvFile_insuff_unreported :
    ¬ ∀ (host : Endian) (e : Env) (ic : Iconv Unit) (inoffset : Nat) (outhead : List UInt8)
      (linesizemax : UInt32) (bom : UcsBom),
      e.Faultless → StartsWithBom e.file bom → bom = .noneBom ∨ bom = .utf8Bom →
      1 ≤ linesizemax.toNat → 5 * linesizemax.toNat < 2 ^ 32 →
      (∃ r ∈ List.runs topBit (e.file.drop (bomLength bom + inoffset)),
        linesizemax.toNat ≤ r.length) →
      ic.Accepts (max 5 linesizemax.toNat) (4 * linesizemax.toNat) →
      ReportsInsuff host e ic () inoffset outhead linesizemax
        (e.file.drop (bomLength bom + inoffset)) := by
  intro hreports
  have haccepts : (Iconv.ofFun fun _ => some []).Accepts (max 5 8) (4 * 8) := by
    intro cd input _
    rw [Iconv.implements_ofFun]
    rfl
  obtain ⟨r, outs, hr, hinsuff, -⟩ := hreports .little lettersEnv (.ofFun fun _ => some []) 0 [] 8
    .noneBom (fun _ => rfl) (by decide) (.inl rfl) (by decide) (by decide) (by decide) haccepts
  have hcall : (convdConvFile .little lettersEnv (.ofFun fun _ => some []) 12 () 0 [] 8
      Sys.init).any (fun r => r.ret == convdNoerror) = true := by decide +kernel
  obtain ⟨r', hr', hret⟩ := (Option.any_eq_true _ _).mp hcall
  rw [hr.unique ⟨12, hr'⟩, beq_iff_eq.mp hret] at hinsuff
  exact absurd hinsuff (by decide : convdNoerror ≠ convdErrInsuff)

end Convd
