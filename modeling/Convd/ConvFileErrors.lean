/-
# `Convd.ConvFileErrors` — which failures `convd_conv_file` reports

Each operation the code looks at after it was made leads, when it fails, to an exit with
an error code; no other exit of the loop has one.  So `CONVD_NOERROR` means that no
operation failed exactly when none of the four failed whose result is dropped.
-/
import Convd.ConvStart

namespace Convd

open Loop

variable {σ : Type}

/-- What a result and its log have to do with each other. -/
structure Reports (r : FileResult) : Prop where
  noticed : NoticedFails r.sys.log → r.ret ≠ convdNoerror
  quiet : ¬ NoticedFails r.sys.log → r.ret = convdNoerror ∨ AllOk r.sys.log

section

variable {host : Endian} {e : Env} {ic : Iconv σ}

theorem ChunkFrom.not_noticed {cpos : ConvPosition} {s : Sys} {input : List UInt8} {offset : Int}
    {pos : Nat} {evs : List Event} (h : ChunkFrom host e cpos s input offset pos evs) :
    ¬ NoticedFails evs := by
  cases h with
  | line evs _ _ _ hok => exact hok.not_noticed
  | lost evs _ _ _ hquiet => exact hquiet
  | insuff evs _ _ hok => simp [hok.not_noticed, Event.dropped, Event.ok]

/-- A turn goes round again without a failure that is looked at; a turn that leaves reports
the one there was. -/
theorem convTurn_reports {st : LoopState σ} (hL : st.cpos.linesize ≠ 0xFFFFFFFF)
    (hquiet : ¬ NoticedFails st.sys.log) :
    (∀ st', convTurn host e ic st = .again st' →
      st'.cpos.linesize ≠ 0xFFFFFFFF ∧ ¬ NoticedFails st'.sys.log) ∧
    (∀ r, convTurn host e ic st = .leave r → Reports r) := by
  have hturn := @convTurn_outcome σ host e ic st hL
  generalize convTurn host e ic st = turn at hturn
  have hfails : ∀ {ret : Int} {s : Sys} {evs : List Event}, ret ≠ convdNoerror →
      s.log = st.sys.log ++ evs → NoticedFails evs → Reports ⟨ret, none, s⟩ := by
    intro ret s evs hret hlog hevs
    have hlogfails : NoticedFails s.log := by
      rw [hlog]
      exact noticedFails_append.mpr (.inr hevs)
    exact ⟨fun _ => hret, fun h => absurd hlogfails h⟩
  cases hturn with
  | fileFails s evs hlog _ hevs _ _ =>
      refine ⟨(fun _ h => nomatch h), fun r h => ?_⟩
      cases h
      exact hfails (convdErr_ne convdErrFile (by decide)) hlog hevs
  | finished s evs hlog _ hevs _ _ _ =>
      refine ⟨(fun _ h => nomatch h), fun r h => ?_⟩
      cases h
      have hlogquiet : ¬ NoticedFails s.log := by
        rw [hlog, noticedFails_append]
        exact fun h => h.elim hquiet hevs
      exact ⟨fun h => absurd h hlogquiet, fun _ => .inl rfl⟩
  | refused input offset pos s evs evs' _ _ _ hconv hlog _ =>
      refine ⟨(fun _ h => nomatch h), fun r h => ?_⟩
      cases h
      exact hfails (convdErr_ne convdErrIconv (by decide)) hlog (by simp [hconv.noticed])
  | writeFails input out offset pos k s evs evs' _ _ _ hevs _ hlog _ =>
      refine ⟨(fun _ h => nomatch h), fun r h => ?_⟩
      cases h
      exact hfails (convdErr_ne convdErrFile (by decide)) hlog (by simp [hevs.noticed fun _ => rfl])
  | written input out st' evs evs' hfrom _ _ hevs _ hsize _ hlog _ =>
      refine ⟨fun st'' h => ?_, fun _ h => nomatch h⟩
      cases h
      refine ⟨hsize ▸ hL, ?_⟩
      rw [hlog]
      simp [hquiet, hfrom.not_noticed, hevs.allOk.not_noticed, allOk_convCalls.not_noticed,
        Event.dropped, Event.ok]

theorem convdConvFile_reports {cd : σ} {inoffset : Nat} {outhead : List UInt8}
    {linesizemax : UInt32} {r : FileResult}
    (h : ConvFileReturns host e ic cd inoffset outhead linesizemax r) : Reports r := by
  obtain ⟨call, hstart, hcall⟩ := @ConvFileReturnsFrom.start _ host e ic cd inoffset outhead
    linesizemax _ Sys.fresh_init
  obtain ⟨fuel, hfuel⟩ := (hcall r).mp h
  cases hstart with
  | noticed r' hret hfails _ _ =>
      cases hfuel
      exact ⟨fun _ => hret ▸ convdErr_ne convdErrFile (by decide), fun h => absurd hfails h⟩
  | notCreated r' hret hquiet _ _ =>
      cases hfuel
      exact ⟨fun h => absurd h hquiet, fun _ => .inl hret⟩
  | encoding r' hret hok _ _ =>
      cases hfuel
      exact ⟨fun h => absurd h hok.not_noticed, fun _ => .inr hok⟩
  | loop st hquiet hL _ =>
      refine run_invariant
        (P := fun st => st.cpos.linesize ≠ 0xFFFFFFFF ∧ ¬ NoticedFails st.sys.log)
        ?_ ?_ ⟨hL, hquiet⟩ hfuel
      · exact fun st st' hst => (convTurn_reports hst.1 hst.2).1 st'
      · exact fun st r hst => (convTurn_reports hst.1 hst.2).2 r

/-- `CONVD_NOERROR` says that everything went well if and only if the operations whose
result is dropped did, or another failure is reported anyway. -/
theorem convdConvFile_noerror_allOk_iff {cd : σ} {inoffset : Nat} {outhead : List UInt8}
    {linesizemax : UInt32} {r : FileResult}
    (h : ConvFileReturns host e ic cd inoffset outhead linesizemax r) :
    (r.ret = convdNoerror → AllOk r.sys.log) ↔ DroppedOk r.sys.log ∨ NoticedFails r.sys.log := by
  have hreports := convdConvFile_reports h
  by_cases hfails : NoticedFails r.sys.log
  · have hret := hreports.noticed hfails
    exact ⟨fun _ => .inr hfails, fun _ hnoerror => absurd hnoerror hret⟩
  · constructor
    · intro hallOk
      rcases hreports.quiet hfails with hret | hok
      · exact .inl (hallOk hret).droppedOk
      · exact .inl hok.droppedOk
    · rintro (hdropped | hnoticed) _
      · exact allOk_iff.mpr ⟨hdropped, hfails⟩
      · exact absurd hnoticed hfails

end

/-- Of two bytes the second cannot be written (it is the twentieth call), which is reported. -/
theorem convdConvFile_noerror_allOk_iff_half :
    ∃ r, ConvFileReturns .little (.bytewise [97, 98] (by decide) (· == 19)) (.ofFun some) () 0 [] 8
        r ∧
      (r.ret = convdErrFile ∧ r.sys.out = [97] ∧ NoticedFails r.sys.log) ∧
      ((r.ret = convdNoerror → AllOk r.sys.log) ↔
        DroppedOk r.sys.log ∨ NoticedFails r.sys.log) := by
  have hcall : (convdConvFile .little (.bytewise [97, 98] (by decide) (· == 19)) (.ofFun some) 9 ()
      0 [] 8 Sys.init).any (fun r => decide (r.ret = convdErrFile ∧ r.sys.out = [97]) &&
        r.sys.log.contains (.call (.write 1) false)) = true := by decide +kernel
  obtain ⟨r, hr, hand⟩ := (Option.any_eq_true _ _).mp hcall
  obtain ⟨hends, hwrite⟩ := (Bool.and_eq_true _ _).mp hand
  obtain ⟨hret, hout⟩ := of_decide_eq_true hends
  exact ⟨r, ⟨9, hr⟩, ⟨hret, hout, _, List.contains_iff_mem.mp hwrite, rfl, rfl⟩,
    convdConvFile_noerror_allOk_iff ⟨9, hr⟩⟩

/-- Nothing is converted, an empty file being read. -/
def emptyCall (fails : Nat → Bool) : Option FileResult :=
  convdConvFile .little (.bytewise [] (by decide) fails) (.ofFun some) 1 () 0 [] 8 Sys.init

/-- The output cannot be created (it is the sixth call), and the result is success. -/
theorem convdConvFile_noerror_not_created :
    ¬ ∀ (host : Endian) (e : Env) (ic : Iconv Unit) (inoffset : Nat) (outhead : List UInt8)
      (linesizemax : UInt32) (r : FileResult),
      ConvFileReturns host e ic () inoffset outhead linesizemax r →
      r.ret = convdNoerror → AllOk r.sys.log := by
  intro hallOk
  have hcall : (emptyCall (· == 5)).any (fun r => r.ret == convdNoerror &&
      r.sys.log.contains (.call .create false)) = true := by decide +kernel
  obtain ⟨r, hr, hlog⟩ := (Option.any_eq_true _ _).mp hcall
  obtain ⟨hret, hcreate⟩ := (Bool.and_eq_true _ _).mp hlog
  have hok := hallOk _ _ _ _ _ _ r ⟨1, hr⟩ (beq_iff_eq.mp hret)
  exact nomatch hok _ (List.contains_iff_mem.mp hcreate)

end Convd
