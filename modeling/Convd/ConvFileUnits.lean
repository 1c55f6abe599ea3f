/-
# `Convd.ConvFileUnits` — `convd_conv_file` on a text in units

Behind a UCS-2 or UCS-4 mark the text is read in whole units, as many as fit the line
buffer, and each is rewritten for the host.  A line of no units has length 0, and so
has the end of the file: where the reader gets stuck, the call ends in success.

    all whole units, one fits        every unit handed over once, in order (`convdConvFile_units`)
    otherwise                        the rest is left, and not reported (`convdConvFile_covers_iff`)
-/
import Convd.ConvStart

namespace Convd

open Loop

variable {σ : Type}

/-! ## Units -/

/-- The byte order a mark announces. -/
def bomOrder : UcsBom → Endian
  | .ucs2beBom | .ucs4beBom => .big
  | _ => .little

/-- A text in units, each rewritten for the host. -/
def unitsToHost (host : Endian) (bom : UcsBom) (text : List UInt8) : List UInt8 :=
  convertUnits (fun u => host.image (unitWidth bom) ((bomOrder bom).value u)) (unitWidth bom)
    (text.length / unitWidth bom) text

theorem convertUnits_congr {f g : List UInt8 → List UInt8} {w : Nat}
    (h : ∀ u, u.length = w → f u = g u) : ∀ (k : Nat) (bs : List UInt8), k * w ≤ bs.length →
      convertUnits f w k bs = convertUnits g w k bs
  | 0, _, _ => rfl
  | k + 1, bs, hk => by
      rw [Nat.succ_mul] at hk
      have hunit : (bs.take w).length = w := by
        rw [List.length_take]
        omega
      rw [convertUnits, convertUnits, h _ hunit, convertUnits_congr h k]
      rw [List.length_drop]
      omega

/-- On a little-endian host the code rewrites a unit as it should. -/
theorem lineConvert_little {bom : UcsBom} {u : List UInt8} (hu : u.length = unitWidth bom) :
    lineConvert .little bom u = Endian.little.image (unitWidth bom) ((bomOrder bom).value u) := by
  have hlittle := Endian.image_value .little u
  have hbig := Endian.image_value .little u.reverse
  rw [List.length_reverse, Endian.value_reverse] at hbig
  rw [← hu]
  cases bom <;>
    simp only [lineConvert, bomOrder, boBytesBetoh_eq, boBytesLetoh_eq, hlittle] <;> exact hbig.symm

section Call

variable {host : Endian} {e : Env} {ic : Iconv σ} {cd : σ} {inoffset : Nat}
  {outhead : List UInt8} {linesizemax : UInt32} {bom : UcsBom}

theorem ne_ask_of_units (h : isText bom = false) : bom ≠ .utf8BomAsk := by
  rintro rfl
  cases h

/-- A call on whole units, one of which fits the buffer, hands over each unit once, in
order, rewritten for the host, and returns `CONVD_NOERROR`. -/
theorem convdConvFile_units (hfiles : e.Faultless) (hbom : StartsWithBom e.file bom)
    (hunits : isText bom = false) (hin : bomLength bom + inoffset < 2 ^ 63)
    (hwhole : unitWidth bom ∣ (e.file.drop (bomLength bom + inoffset)).length)
    (hsize : unitWidth bom ≤ linesizemax.toNat) (hmax : 5 * linesizemax.toNat < 2 ^ 32)
    (hic : ic.Accepts linesizemax.toNat (4 * linesizemax.toNat)) :
    ∃ r, ConvFileReturns .little e ic cd inoffset outhead linesizemax r ∧
      r.ret = convdNoerror ∧ (handed r.sys.log).flatten
        = unitsToHost .little bom (e.file.drop (bomLength bom + inoffset)) := by
  have hsizeq : lineSize linesizemax = linesizemax := lineSize_of_ne (ne_of_fits hmax)
  generalize hregion : e.file.drop (bomLength bom + inoffset) = region at hwhole ⊢
  obtain ⟨k, lines, hk, hlines, hflat, hall⟩ :=
    @lines_units .little bom _ hunits linesizemax.toNat_lt region
  have hend : k * unitWidth bom = region.length := hall.mpr (.inr ⟨hwhole, hsize, by omega⟩)
  rw [← hregion, ← hsizeq] at hlines
  obtain ⟨st, r, hst, hret, hrun⟩ :=
    hfiles.runs ic cd outhead hbom (ne_ask_of_units hunits) hin hlines
  rw [hsizeq] at hrun
  refine ⟨r, hret, ?_⟩
  cases hrun with
  | done outs s' evs _ hlog _ hhanded _ =>
      have hdiv : region.length / unitWidth bom = k := by
        rw [← hend, Nat.mul_div_cancel _ (unitWidth_pos bom)]
      have hunit := fun u => @lineConvert_little bom u
      refine ⟨rfl, ?_⟩
      rw [hlog, handed_append, hst.handed_eq, hhanded, List.nil_append, hflat, unitsToHost, hdiv]
      exact convertUnits_congr hunit k region hk
  | refused before after outs input s' evs hsplit _ href _ _ _ _ =>
      have hmem : input ∈ lines := by simp [hsplit]
      obtain ⟨cd', hnone⟩ := href
      have hle := hlines.length_le input hmem
      rw [hsizeq] at hle
      have haccepts := hic cd' input hle
      rw [← toNat_room hmax, hnone] at haccepts
      cases haccepts
  | fileFails s' evs hfault _ _ _ =>
      exact absurd hfault hfiles.no_fault

end Call

/-- "ab" in UCS-2BE, with a buffer of three bytes. -/
theorem convdConvFile_units_ucs2be :
    ∃ r, ConvFileReturns .little (.bytewise [0xFE, 0xFF, 0, 97, 0, 98] (by decide) fun _ => false)
        (.ofFun fun _ => some []) () 0 [] 3 r ∧ r.ret = convdNoerror ∧
      (handed r.sys.log).flatten = unitsToHost .little .ucs2beBom [0, 97, 0, 98] := by
  refine @convdConvFile_units Unit
    (.bytewise [0xFE, 0xFF, 0, 97, 0, 98] (by decide) fun _ => false) (.ofFun fun _ => some [])
    () 0 [] 3 .ucs2beBom (fun _ => rfl) (by decide) rfl (by decide) (by decide) (by decide)
    (by decide) fun cd input _ => ?_
  rw [Iconv.implements_ofFun]
  rfl

/-! ## What is left -/

section Call

variable {host : Endian} {e : Env} {ic : Iconv σ} {cd : σ} {inoffset : Nat}
  {outhead : List UInt8} {linesizemax : UInt32} {bom : UcsBom}

/-- Every byte of `region` was handed over: it is whole units, and they are the last ones
handed over. -/
def CoversRegion (host : Endian) (bom : UcsBom) (region : List UInt8) (log : List Event) : Prop :=
  unitWidth bom ∣ region.length ∧
    convertUnits (lineConvert host bom) (unitWidth bom) (region.length / unitWidth bom) region
      <:+ (handed log).flatten

/-- The units handed over are all there are exactly when the bytes are all there are. -/
theorem coversRegion_iff {region : List UInt8} {log : List Event} {k : Nat}
    (hk : k * unitWidth bom ≤ region.length) (hflat : (handed log).flatten
      = convertUnits (lineConvert host bom) (unitWidth bom) k region) :
    CoversRegion host bom region log ↔ k * unitWidth bom = region.length := by
  have hlen := @length_convertUnits _ (unitWidth bom) (length_lineConvert host bom)
  rw [CoversRegion, hflat]
  constructor
  · rintro ⟨hdvd, hsuffix⟩
    have hle := hsuffix.length_le
    rw [hlen _ _ (Nat.div_mul_le_self _ _), hlen _ _ hk, Nat.div_mul_cancel hdvd] at hle
    exact Nat.le_antisymm hk hle
  · intro hend
    rw [← hend, Nat.mul_div_cancel _ (unitWidth_pos bom)]
    exact ⟨Nat.dvd_mul_left _ _, List.suffix_refl _⟩

/-- A call on a text in units that returns `CONVD_NOERROR` has left nothing of it if and
only if it is whole units and one fits the buffer; or else another failure is
reported anyway. -/
theorem convdConvFile_covers_iff {r : FileResult} (hbom : StartsWithBom e.file bom)
    (hunits : isText bom = false)
    (h : ConvFileReturns host e ic cd inoffset outhead linesizemax r)
    (hdropped : DroppedOk r.sys.log) :
    (r.ret = convdNoerror →
        CoversRegion host bom (e.file.drop (bomLength bom + inoffset)) r.sys.log) ↔
      NoticedFails r.sys.log ∨ WholeUnits bom (lineSize linesizemax).toNat
        (e.file.drop (bomLength bom + inoffset)) := by
  by_cases hin : bomLength bom + inoffset < 2 ^ 63
  · obtain ⟨k, lines, hk, hlines, hflat, hall⟩ := @lines_units host bom _ hunits
      (lineSize linesizemax).toNat_lt (e.file.drop (bomLength bom + inoffset))
    rcases h.runs Sys.fresh_init hbom hdropped hin hlines with
      ⟨-, ⟨hret, hfails⟩ | ⟨-, hask⟩⟩ | ⟨pos, st, hst, hrun⟩
    · exact ⟨fun _ => .inl hfails, fun _ hnoerror =>
        absurd (hret.symm.trans hnoerror) (convdErr_ne convdErrFile (by decide))⟩
    · exact absurd hask (ne_ask_of_units hunits)
    · cases hrun with
      | done outs s' evs _ hlog hok hhanded _ =>
          have hquiet : ¬ NoticedFails s'.log := by
            rw [hlog]
            simp [hst.log_ok.not_noticed, hok.not_noticed]
          have hcovers := @coversRegion_iff host bom _ s'.log k hk
            (by rw [hlog, handed_append, hst.handed_eq, hhanded, List.nil_append, hflat])
          rw [hcovers, ← hall]
          exact ⟨fun hcover => .inr (hcover rfl), fun hcond _ => hcond.resolve_left hquiet⟩
      | refused before after outs input s' evs _ _ _ hlog hfails _ _ =>
          have hnoticed : NoticedFails s'.log := hlog ▸ noticedFails_append.mpr (.inr hfails)
          exact ⟨fun _ => .inl hnoticed,
            fun _ hret => absurd hret (convdErr_ne convdErrIconv (by decide))⟩
      | fileFails s' evs _ hlog hfails _ =>
          have hnoticed : NoticedFails s'.log := hlog ▸ noticedFails_append.mpr (.inr hfails)
          exact ⟨fun _ => .inl hnoticed,
            fun _ hret => absurd hret (convdErr_ne convdErrFile (by decide))⟩
  · -- `inoffset` leads past the end of any file: there is nothing to leave
    have hfile := e.file_lt
    rw [List.drop_eq_nil_of_le (by omega)]
    refine ⟨fun _ => .inr (.inl rfl), fun _ _ => ⟨Nat.dvd_zero _, ?_⟩⟩
    rw [List.length_nil, Nat.zero_div]
    exact List.nil_suffix

end Call

/-- A text in UCS-2LE behind its mark, in lines of eight bytes. -/
def ucs2leCall (bytes : List UInt8) (h : ([0xFF, 0xFE] ++ bytes).length < 2 ^ 63) :
    Option FileResult :=
  convdConvFile .little (.bytewise ([0xFF, 0xFE] ++ bytes) h fun _ => false)
    (.ofFun fun _ => some []) 4 () 0 [] 8 Sys.init

theorem convdConvFile_covers_iff_whole :
    ∃ r, ucs2leCall [97, 0] (by decide) = some r ∧
      ((r.ret = convdNoerror → CoversRegion .little .ucs2leBom [97, 0] r.sys.log) ↔
        NoticedFails r.sys.log ∨ WholeUnits .ucs2leBom (lineSize 8).toNat [97, 0]) := by
  have hcall : (ucs2leCall [97, 0] (by decide)).any (fun r => decide (DroppedOk r.sys.log))
      = true := by decide +kernel
  obtain ⟨r, hr, hdropped⟩ := (Option.any_eq_true _ _).mp hcall
  exact ⟨r, hr, @convdConvFile_covers_iff Unit .little
    (.bytewise [0xFF, 0xFE, 97, 0] (by decide) fun _ => false) (.ofFun fun _ => some []) () 0 [] 8
    .ucs2leBom r (by decide) rfl ⟨4, hr⟩ (of_decide_eq_true hdropped)⟩

/-- Half a unit: it is left, and the result is success, though no operation failed. -/
theorem convdConvFile_half_unit_left :
    ¬ ∀ (host : Endian) (e : Env) (ic : Iconv Unit) (inoffset : Nat) (outhead : List UInt8)
      (linesizemax : UInt32) (bom : UcsBom) (r : FileResult),
      StartsWithBom e.file bom → isText bom = false →
      ConvFileReturns host e ic () inoffset outhead linesizemax r → AllOk r.sys.log →
      r.ret = convdNoerror →
      CoversRegion host bom (e.file.drop (bomLength bom + inoffset)) r.sys.log := by
  intro hcoversAll
  have hcall : (ucs2leCall [97] (by decide)).any (fun r => decide (AllOk r.sys.log) &&
      r.ret == convdNoerror) = true := by decide +kernel
  obtain ⟨r, hr, hand⟩ := (Option.any_eq_true _ _).mp hcall
  obtain ⟨hok, hret⟩ := (Bool.and_eq_true _ _).mp hand
  have hcovers := hcoversAll .little (.bytewise [0xFF, 0xFE, 97] (by decide) fun _ => false)
    (.ofFun fun _ => some []) 0 [] 8 .ucs2leBom r (by decide) rfl ⟨4, hr⟩ (of_decide_eq_true hok)
    (beq_iff_eq.mp hret)
  exact absurd hcovers.1 (by decide)

end Convd
