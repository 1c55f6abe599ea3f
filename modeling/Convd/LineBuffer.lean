/-
# `Convd.LineBuffer` — the regions of the line buffer

`ucs_file_read_open` allocates one buffer; `ucs_file_read_next` reads a line into the
beginning of it, and `convd_conv_file` has the line converted into the rest.  Each works
out its size by itself, from the same 32-bit number:

    allocated    5 * linesize     modulo 2 ^ 32
    read         linesize
    converted    linesize * 4     modulo 2 ^ 32, from linesize on

The sizes agree as long as the first of them does not wrap.
-/
import Convd.ConvTurn
import Convd.Lib.Steps

namespace Convd

open Loop Relation Steps

variable {σ : Type}

/-! ## The regions -/

/-- What `ucs_file_read_next` may fill. -/
def ConvPosition.inputRegion (cpos : ConvPosition) : Span := ⟨0, cpos.linesize.toNat⟩

/-- What `convd_conv_text` may fill: four bytes for each byte of a line. -/
def ConvPosition.outputRegion (cpos : ConvPosition) : Span :=
  ⟨cpos.linesize.toNat, 4 * cpos.linesize.toNat⟩

/-- The buffer has room for both regions, and the sizes are what they are meant to be. -/
structure ConvPosition.Covers (cpos : ConvPosition) : Prop where
  input : cpos.inputRegion.Within cpos.linebytes
  output : cpos.outputRegion.Within cpos.linebytes
  linebytes_eq : cpos.linebytes = 5 * cpos.linesize.toNat
  room_eq : (cpos.linesize * 4).toNat = 4 * cpos.linesize.toNat

theorem toNat_five_mul (L : UInt32) : (5 * L).toNat = 5 * L.toNat % 2 ^ 32 := by
  have hfive : (5 : UInt32).toNat = 5 := rfl
  rw [UInt32.toNat_mul, hfive]

theorem covers_iff {cpos : ConvPosition} (h : cpos.linebytes = (5 * cpos.linesize).toNat) :
    cpos.Covers ↔ 5 * cpos.linesize.toNat < 2 ^ 32 := by
  rw [toNat_five_mul] at h
  constructor
  · intro hcov
    have := hcov.linebytes_eq
    omega
  · intro hlt
    rw [Nat.mod_eq_of_lt hlt] at h
    refine ⟨?_, ?_, h, ?_⟩
    · show 0 + cpos.linesize.toNat ≤ cpos.linebytes
      omega
    · show cpos.linesize.toNat + 4 * cpos.linesize.toNat ≤ cpos.linebytes
      omega
    · rw [toNat_mul_four]
      omega

/-- In what sizes a line fits, `-1` standing for the default. -/
theorem lineSize_fits_iff (linesizemax : UInt32) :
    5 * (lineSize linesizemax).toNat < 2 ^ 32 ↔
      linesizemax = 0xFFFFFFFF ∨ linesizemax.toNat ≤ 858993459 := by
  rw [lineSize]
  split
  · rename_i hmax
    exact iff_of_true (by decide) (.inl hmax)
  · rename_i hne
    rw [or_iff_right hne]
    omega

/-! ## Along a run -/

/-- A turn leaves the sizes as they are. -/
theorem convTurn_sizes {host : Endian} {e : Env} {ic : Iconv σ} {st st' : LoopState σ}
    (h : convTurn host e ic st = .again st') :
    st'.cpos.linesize = st.cpos.linesize ∧ st'.cpos.linebytes = st.cpos.linebytes := by
  have hread := readNext_sizes host e st.cpos st.sys
  rcases hres : ucsFileReadNext host e st.cpos st.sys with ⟨ret, cpos, s⟩
  rw [hres] at hread
  simp only [convTurn, hres] at h
  split_ifs at h
  have hchunk := convChunk_outcome e ic cpos st.cd st.outfdsize ret (s.note (.readNext ret))
  rw [h] at hchunk
  cases hchunk with
  | written out m cd t evs _ _ => exact hread

/-- The buffer that was allocated covers both regions, before the loop and between any two of
its turns, exactly when five lines are less than 4 GiB. -/
theorem lineBuffer_covers_iff {host : Endian} {e : Env} {ic : Iconv σ} {linesizemax : UInt32}
    {s₀ s₁ s : Sys} {cpos : ConvPosition} {offset : Int} {cd : σ} {outfdsize : Nat}
    {st : LoopState σ} (hopen : ucsFileReadOpen e linesizemax s₀ = (.ok cpos, s₁))
    (hrun : ReflTransGen (fun st st' => convTurn host e ic st = .again st')
      ⟨{ cpos with offset := offset }, cd, outfdsize, s⟩ st) :
    st.cpos.Covers ↔ linesizemax = 0xFFFFFFFF ∨ linesizemax.toNat ≤ 858993459 := by
  have hopened := ucsFileReadOpen_outcome e linesizemax s₀
  rw [hopen] at hopened
  obtain ⟨hsize, hbytes⟩ := hopened.sizes
  obtain ⟨hsize', hbytes'⟩ := invariant
    (P := fun st : LoopState σ =>
      st.cpos.linesize = cpos.linesize ∧ st.cpos.linebytes = cpos.linebytes)
    (fun st st' hst hagain => by
      obtain ⟨h1, h2⟩ := convTurn_sizes hagain
      exact ⟨h1.trans hst.1, h2.trans hst.2⟩) hrun ⟨rfl, rfl⟩
  rw [covers_iff (by rw [hbytes', hbytes, hsize', hsize]), hsize', hsize, lineSize_fits_iff]

/-- An empty file, opened for lines of `linesizemax` bytes. -/
theorem opened_empty (linesizemax : UInt32) : ∃ cpos s, ucsFileReadOpen
    (.bytewise [] (by decide) fun _ => false) linesizemax Sys.init = (.ok cpos, s) :=
  ⟨_, _, rfl⟩

/-- Behind the first turn of a file of one letter, in lines of 64 bytes. -/
theorem lineBuffer_covers_iff_letter :
    ∃ cpos s st, ucsFileReadOpen letterEnv 64 Sys.init = (.ok cpos, s) ∧
      convTurn .little letterEnv (.ofFun some) ⟨cpos, (), 0, s⟩ = .again st ∧ st.sys.out = [97] ∧
      (st.cpos.Covers ↔ (64 : UInt32) = 0xFFFFFFFF ∨ (64 : UInt32).toNat ≤ 858993459) := by
  obtain ⟨cpos, s, st, hopen, hturn, hout⟩ : ∃ cpos s st,
      ucsFileReadOpen letterEnv 64 Sys.init = (.ok cpos, s) ∧
      convTurn .little letterEnv (.ofFun some) ⟨cpos, (), 0, s⟩ = .again st ∧
      st.sys.out = [97] := ⟨_, _, _, rfl, rfl, rfl⟩
  exact ⟨cpos, s, st, hopen, hturn, hout, @lineBuffer_covers_iff Unit .little _ (.ofFun some) 64
    _ _ s _ cpos.offset () 0 st hopen (.single hturn)⟩

/-- Lines of 858993460 bytes get a buffer of four. -/
theorem lineBuffer_not_covers :
    ¬ ∀ (e : Env) (linesizemax : UInt32) (s₀ s₁ : Sys) (cpos : ConvPosition),
      ucsFileReadOpen e linesizemax s₀ = (.ok cpos, s₁) → cpos.Covers := by
  intro h
  obtain ⟨cpos, s, hopen⟩ := opened_empty 858993460
  have hopened := ucsFileReadOpen_outcome (.bytewise [] (by decide) fun _ => false) 858993460
    Sys.init
  rw [hopen] at hopened
  obtain ⟨hsize, hbytes⟩ := hopened.sizes
  have hcov := (covers_iff (by rw [hbytes, hsize])).mp (h _ _ _ _ _ hopen)
  rw [hsize] at hcov
  exact absurd hcov (by decide)

end Convd
