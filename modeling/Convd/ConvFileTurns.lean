/-
# `Convd.ConvFileTurns` — how often the loop goes round

The loop of `convd_conv_file` ends because of what a turn moves (`Moved`): after a line, the
stored offset; after a buffer found insufficient, the place of the file.  Neither of them
only grows, since the seek that follows a short line takes the file back.

Here is the bound that gives for the whole call.  It asks nothing of the calls of the
system, of the size of the line buffer, of `inoffset` or of what is converted.
-/
import Convd.ConvRun

namespace Convd

open Loop

variable {σ : Type}

/-- Every call returns, after a number of turns that the length of the file bounds. -/
theorem convdConvFile_turns (host : Endian) (e : Env) (ic : Iconv σ) (cd : σ) (inoffset : Nat)
    (outhead : List UInt8) (linesizemax : UInt32) (s : Sys) :
    ∃ r, convdConvFile host e ic ((e.file.length + 4) * (e.file.length + 1)) cd inoffset outhead
      linesizemax s = some r := by
  have hcall := convdConvFile_outcome host e ic cd inoffset outhead linesizemax s
  generalize hdef : (fun fuel => convdConvFile host e ic fuel cd inoffset outhead linesizemax s)
    = call at hcall
  have hfuel : ∀ fuel, convdConvFile host e ic fuel cd inoffset outhead linesizemax s
      = call fuel := fun fuel => congrFun hdef fuel
  rw [hfuel]
  cases hcall with
  | openFails ret s' _ => exact ⟨_, rfl⟩
  | createFails cpos s' _ _ => exact ⟨_, rfl⟩
  | headFails cpos s' k t evs _ _ _ => exact ⟨_, rfl⟩
  | loop cpos s' ok pos t evs hopen _ _ =>
      have hL := hopen.linesize_ne
      exact run_of_inRange ⟨hL, le_toSb8 _, toSb8_lt _⟩

end Convd
