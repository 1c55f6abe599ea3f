/-
# `Convd.ConvFlush` — converters that owe something at the end

`iconv` keeps a shift state in some encodings (ISO-2022, HZ, UTF-7) and a character in
others; what is due at the end of a text is written by a last call without an input,
`iconv(cd, NULL, NULL, &out, &outleft)`.  `convd_conv_text` makes the all-NULL call before
a text and no call behind it.  So what it returns is the run of the converter (`Drives`), and
the whole conversion only of texts behind which nothing is due.
-/
import Convd.Iconv
import Convd.Lib.Transducer

namespace Convd

variable {σ : Type}

/-- The converter runs a transducer: the all-NULL call goes back to its initial state, and
a call that succeeds has run it over the input. -/
structure Drives (ic : Iconv σ) (m : Transducer σ UInt8 UInt8) : Prop where
  reset_eq : ∀ cd, ic.reset cd = some m.init
  conv_eq : ∀ cd input room, (ic.conv cd input room).ok = true →
    m.run cd input = some ((ic.conv cd input room).out, (ic.conv cd input room).next)

/-- The converter that runs `m`, and refuses an input it cannot finish. -/
def Iconv.ofTransducer (m : Transducer σ UInt8 UInt8) : Iconv σ where
  reset _ := some m.init
  conv cd input room :=
    match (m.run cd input).filter (·.1.length ≤ room) with
    | some (out, next) => ⟨true, input.length, out, next⟩
    | none => ⟨false, 0, [], cd⟩
  consumed_eq cd input room h := by
    rcases hrun : (m.run cd input).filter (·.1.length ≤ room) with _ | ⟨out, next⟩
    · simp [hrun] at h
    · simp only [hrun]
  out_le cd input room := by
    rcases hrun : (m.run cd input).filter (·.1.length ≤ room) with _ | ⟨out, next⟩
    · simp [hrun]
    · simpa [hrun] using (Option.filter_eq_some_iff.mp hrun).2

theorem Iconv.drives_ofTransducer (m : Transducer σ UInt8 UInt8) : Drives (.ofTransducer m) m where
  reset_eq _ := rfl
  conv_eq cd input room h := by
    rcases hrun : (m.run cd input).filter (·.1.length ≤ room) with _ | ⟨out, next⟩
    · simp [Iconv.ofTransducer, hrun] at h
    · simp only [Iconv.ofTransducer, hrun]
      exact (Option.filter_eq_some_iff.mp hrun).1

/-- All of the conversion was written, and so it can be undone. -/
structure ConvertsWhole (m : Transducer σ UInt8 UInt8) (input out : List UInt8) : Prop where
  complete_eq : m.complete input = some out
  undone : ∀ decode, m.UndoneBy decode → decode out = some input

variable {ic : Iconv σ} {m : Transducer σ UInt8 UInt8} {cd : σ} {input out : List UInt8}
  {room : Nat} {s : Sys}

/-- What a call that succeeds writes is the run from the initial state. -/
theorem Drives.run_eq (hic : Drives ic m) (h : (convdConvText ic cd input room s).1 = some out) :
    ∃ fin, m.run m.init input = some (out, fin) := by
  rcases convdConvText_cases ic cd input room s with
    ⟨out', cd', t, htext, hconv⟩ | ⟨cd', t, evs, -, -, hconv⟩
  · obtain rfl : out' = out := by
      rw [hconv] at h
      exact Option.some.inj h
    rw [Iconv.text, hic.reset_eq] at htext
    simp only at htext
    split at htext
    · rename_i hok
      rw [← Option.some.inj htext]
      exact ⟨_, hic.conv_eq _ _ _ hok⟩
    · cases htext
  · rw [hconv] at h
    cases h

/-- A run that is all of the conversion can be undone. -/
theorem ConvertsWhole.iff_complete :
    ConvertsWhole m input out ↔ m.complete input = some out :=
  ⟨ConvertsWhole.complete_eq, fun h => ⟨h, fun _ hdecode => hdecode input out h⟩⟩

/-- A call that succeeds has written the whole conversion if and only if the text leaves
the converter in a state in which nothing is due. -/
theorem convdConvText_whole_iff (hic : Drives ic m)
    (h : (convdConvText ic cd input room s).1 = some out) :
    ConvertsWhole m input out ↔ m.Settles input := by
  obtain ⟨fin, hrun⟩ := hic.run_eq h
  rw [ConvertsWhole.iff_complete, Transducer.complete_eq_run_iff hrun]

/-- Bytes from 80 on are written with the top bit off, between a shift out and a shift in,
as the 7-bit encodings do. -/
def shiftOut : Transducer Bool UInt8 UInt8 where
  init := false
  step shifted b :=
    if b < 0x80 then some (if shifted then [0x0F, b] else [b], false)
    else some (if shifted then [b - 0x80] else [0x0E, b - 0x80], true)
  flush shifted := if shifted then [0x0F] else []

theorem convdConvText_whole_iff_shiftOut :
    (convdConvText (.ofTransducer shiftOut) true [0xE9, 0x61] 8 Sys.init).1
        = some [0x0E, 0x69, 0x0F, 0x61] ∧
      (ConvertsWhole shiftOut [0xE9, 0x61] [0x0E, 0x69, 0x0F, 0x61] ↔
        shiftOut.Settles [0xE9, 0x61]) := by
  have hcall : (convdConvText (.ofTransducer shiftOut) true [0xE9, 0x61] 8 Sys.init).1
      = some [0x0E, 0x69, 0x0F, 0x61] := by decide +kernel
  exact ⟨hcall, convdConvText_whole_iff (Iconv.drives_ofTransducer shiftOut) hcall⟩

/-- A text that ends shifted out: the shift in is never written, and the call succeeds. -/
theorem convdConvText_leaves_shifted :
    ¬ ∀ (ic : Iconv Bool) (m : Transducer Bool UInt8 UInt8) (cd : Bool) (input out : List UInt8)
      (room : Nat) (s : Sys), Drives ic m → (convdConvText ic cd input room s).1 = some out →
      ConvertsWhole m input out := by
  intro hconverts
  have hcall : (convdConvText (.ofTransducer shiftOut) false [0x61, 0xE9] 8 Sys.init).1
      = some [0x61, 0x0E, 0x69] := by decide +kernel
  have hwhole := hconverts _ _ _ _ _ _ _ (Iconv.drives_ofTransducer shiftOut) hcall
  have hcomplete : shiftOut.complete [0x61, 0xE9] = some [0x61, 0x0E, 0x69, 0x0F] := by decide
  rw [hwhole.complete_eq] at hcomplete
  exact absurd hcomplete (by decide)

end Convd
