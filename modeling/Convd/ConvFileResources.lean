/-
# `Convd.ConvFileResources` — what `convd_conv_file` opens, it closes

Three resources: the handle of the input, that of the output, and the position object.
The log is run through a protocol (`Resources.next`) in which each is unused, then live,
then ended, and may be used while it is live:

    input      unused  —open→  live    —close→  ended      read, seek
    output     unused  —create→ live   —close→  ended      write
    position   unused  —alloc→ live    —free→   ended      its fields and buffers

A log the protocol allows opens nothing twice, closes nothing twice and uses nothing
before or after; and at every exit of the call nothing is live any more (`GivesBack`).  The
exits are reached, whatever fails, as long as the line buffer is not left on the way
(`Convd.LineBufferUse`).
-/
import Convd.ConvRun
import Convd.Lib.Steps
import Convd.LineBufferUse

namespace Convd

open Loop Steps

variable {σ : Type}

/-! ## The protocol -/

/-- A resource. -/
inductive Life where
  | unused
  | live
  | ended
  deriving DecidableEq, Repr

def Life.acquire : Life → Option Life
  | .unused => some .live
  | .live | .ended => none

def Life.release : Life → Option Life
  | .live => some .ended
  | .unused | .ended => none

/-- The three resources of a call. -/
structure Resources where
  text : Life
  out : Life
  pos : Life
  deriving DecidableEq, Repr

/-- What an event does to the resources; none when it is not allowed. -/
def Resources.next (r : Resources) : Event → Option Resources
  | .call .openText true => r.text.acquire.map ({ r with text := · })
  | .call .create true => r.out.acquire.map ({ r with out := · })
  | .call (.alloc _) _ => r.pos.acquire.map ({ r with pos := · })
  | .call .closeText _ => r.text.release.map ({ r with text := · })
  | .call .closeOut _ => r.out.release.map ({ r with out := · })
  | .call .free _ => r.pos.release.map ({ r with pos := · })
  | .call (.read .linebuf _) _ => if r.text = .live ∧ r.pos = .live then some r else none
  | .call (.read _ _) _ | .call (.seekSet _) _ | .call (.seekCur _) _ =>
      if r.text = .live then some r else none
  | .call (.write _) _ => if r.out = .live then some r else none
  -- the text lies in the line buffer, and what it converts to goes behind it
  | .call .usePos _ | .convText _ | .call (.iconv _) _ => if r.pos = .live then some r else none
  | .call .openText false | .call .create false | .call .iconvReset _ | .readNext _ => some r

/-- Nothing was opened yet. -/
def Resources.start : Resources := ⟨.unused, .unused, .unused⟩

/-- The input is open. -/
def Resources.reading : Resources := ⟨.live, .unused, .unused⟩

/-- The input is open, and there is a position object. -/
def Resources.opened : Resources := ⟨.live, .unused, .live⟩

/-- All three are there. -/
def Resources.running : Resources := ⟨.live, .live, .live⟩

/-- Whatever there was is closed or freed. -/
def Resources.Released (r : Resources) : Prop := r.text ≠ .live ∧ r.out ≠ .live ∧ r.pos ≠ .live

instance (r : Resources) : Decidable r.Released := inferInstanceAs (Decidable (_ ∧ _))

/-- From `s` to `s'` the log goes on in a way that takes the resources from `r` to `r'`. -/
def Uses (r : Resources) (s s' : Sys) (r' : Resources) : Prop :=
  ∃ evs, s'.log = s.log ++ evs ∧ Leads Resources.next r evs r'

theorem Uses.refl {r : Resources} {s : Sys} : Uses r s s r := ⟨[], (List.append_nil _).symm, .nil⟩

theorem Uses.trans {r r' r'' : Resources} {s s' s'' : Sys} (h : Uses r s s' r')
    (h' : Uses r' s' s'' r'') : Uses r s s'' r'' := by
  obtain ⟨evs, hlog, hleads⟩ := h
  obtain ⟨evs', hlog', hleads'⟩ := h'
  refine ⟨evs ++ evs', ?_, hleads.append hleads'⟩
  rw [hlog', hlog, List.append_assoc]

/-! ## Transfers -/

section Transfers

variable {op : Nat → Op} {evs : List Event} {r r' : Resources}

theorem Transfers.leads (h : Transfers op evs)
    (hop : ∀ n, r.next (.call (op n) true) = some r) : Leads Resources.next r evs r := by
  apply Leads.of_forall
  intro ev hev
  obtain ⟨n, rfl⟩ := h ev hev
  exact hop n

theorem TransferFails.leads (h : TransferFails op evs)
    (hop : ∀ n ok, r.next (.call (op n) ok) = some r) : Leads Resources.next r evs r := by
  obtain ⟨oks, n, rfl, hoks⟩ := h
  exact (hoks.leads fun n => hop n true).append (.cons (hop n false) .nil)

theorem ConvFails.leads {input : List UInt8} (h : ConvFails input evs) :
    Leads Resources.next .running evs .running := by
  rcases h with rfl | rfl <;> rfl

theorem leads_convCalls (input : List UInt8) :
    Leads Resources.next .running (convCalls input) .running := rfl

theorem leads_closing : Leads Resources.next .running closing ⟨.ended, .ended, .ended⟩ := rfl

end Transfers

theorem uses_closeBoth (s : Sys) : Uses .running s (closeBoth s) ⟨.ended, .ended, .ended⟩ :=
  ⟨closing, closeBoth_log s, leads_closing⟩

/-! ## A turn -/

section Turn

variable {host : Endian} {e : Env} {ic : Iconv σ}

theorem uses_readNext {cpos : ConvPosition} (s : Sys) (hL : cpos.linesize ≠ 0xFFFFFFFF) :
    Uses .running s (ucsFileReadNext host e cpos s).2.2 .running ∧
      (ucsFileReadNext host e cpos s).2.1.linesize = cpos.linesize := by
  have hread : ∀ {evs : List Event}, Transfers (.read .linebuf) evs →
      Leads Resources.next .running (.call .usePos true :: evs) .running :=
    fun h => .cons rfl (h.leads fun _ => rfl)
  have hseek : ∀ {evs : List Event} {distance : Int} {ok : Bool}, Transfers (.read .linebuf) evs →
      Leads Resources.next .running
        (.call .usePos true :: (evs ++ [.call (.seekSet distance) ok])) .running :=
    fun h => .cons rfl ((h.leads fun _ => rfl).append (.cons rfl .nil))
  have hnext := readNext_outcome host e s hL
  generalize ucsFileReadNext host e cpos s = next at hnext
  cases hnext with
  | readFails m k t evs hevs _ =>
      exact ⟨⟨_, rfl, .cons rfl (hevs.leads fun _ _ => rfl)⟩, rfl⟩
  | finished m t evs hevs _ => exact ⟨⟨_, rfl, hread hevs⟩, rfl⟩
  | insuff m t evs hevs _ => exact ⟨⟨_, rfl, hread hevs⟩, rfl⟩
  | line bytes m t evs hevs _ _ _ => exact ⟨⟨_, rfl, hseek hevs⟩, rfl⟩
  | seekFails bytes m k t evs hevs _ _ _ => exact ⟨⟨_, rfl, hseek hevs⟩, rfl⟩
  | seekLost bytes m t evs hevs _ _ _ => exact ⟨⟨_, rfl, hseek hevs⟩, rfl⟩

/-- What a turn leaves behind, whether it goes round again or ends the call. -/
def TurnUses (L : UInt32) (s : Sys) : Turn (LoopState σ) FileResult → Prop
  | .again st => Uses .running s st.sys .running ∧ st.cpos.linesize = L
  | .leave r => Uses .running s r.sys ⟨.ended, .ended, .ended⟩

theorem turnUses_convChunk (cpos : ConvPosition) (cd : σ) (outfdsize : Nat) (ret : Int) (s : Sys) :
    TurnUses cpos.linesize s (convChunk e ic cpos cd outfdsize ret s) := by
  have hchunk := convChunk_outcome e ic cpos cd outfdsize ret s
  generalize convChunk e ic cpos cd outfdsize ret s = turn at hchunk
  cases hchunk with
  | refused t evs _ hfails =>
      have hchunk : Uses .running s
          { s with tick := t, log := s.log ++ .call .usePos true :: evs } .running :=
        ⟨_, rfl, .cons rfl hfails.leads⟩
      exact hchunk.trans (uses_closeBoth _)
  | writeFails out k t evs _ hevs _ =>
      have hchunk : Uses .running s { s with
          tick := t, out := s.out ++ out.take k,
          log := s.log ++ .call .usePos true ::
            (convCalls (cpos.linebuf.load 0 ret.toNat) ++ evs) } .running :=
        ⟨_, rfl, .cons rfl ((leads_convCalls _).append (hevs.leads fun _ _ => rfl))⟩
      exact hchunk.trans (uses_closeBoth _)
  | written out m cd' t evs _ hevs =>
      exact ⟨⟨_, rfl, .cons rfl ((leads_convCalls _).append (hevs.leads fun _ => rfl))⟩, rfl⟩

theorem turnUses_convTurn {st : LoopState σ} (hL : st.cpos.linesize ≠ 0xFFFFFFFF) :
    TurnUses st.cpos.linesize st.sys (convTurn host e ic st) := by
  obtain ⟨hread, hsize⟩ := @uses_readNext host e st.cpos st.sys hL
  rcases hnext : ucsFileReadNext host e st.cpos st.sys with ⟨ret, cpos, s⟩
  rw [hnext] at hread hsize
  have hnoted : Uses .running st.sys (s.note (.readNext ret)) .running :=
    hread.trans ⟨[.readNext ret], rfl, .cons rfl .nil⟩
  simp only [convTurn, hnext]
  split
  · have hchunk := @turnUses_convChunk σ e ic cpos st.cd st.outfdsize ret (s.note (.readNext ret))
    generalize convChunk e ic cpos st.cd st.outfdsize ret (s.note (.readNext ret)) = turn at hchunk
    cases turn with
    | again st' => exact ⟨hnoted.trans hchunk.1, hchunk.2.trans hsize⟩
    | leave r => exact hnoted.trans hchunk
  · exact hnoted.trans (uses_closeBoth _)

/-- However many turns there are: when the loop is left, everything is given back. -/
theorem uses_of_returns {st : LoopState σ} {r : FileResult}
    (hL : st.cpos.linesize ≠ 0xFFFFFFFF) (h : Returns (convTurn host e ic) st r) :
    Uses .running st.sys r.sys ⟨.ended, .ended, .ended⟩ := by
  obtain ⟨n, hn⟩ := h
  refine run_invariant (P := fun st' => st'.cpos.linesize ≠ 0xFFFFFFFF ∧
    Uses .running st.sys st'.sys .running)
    (Q := fun r => Uses .running st.sys r.sys ⟨.ended, .ended, .ended⟩) ?_ ?_ ⟨hL, .refl⟩ hn
  · rintro st₁ st₂ ⟨hL₁, huses⟩ hagain
    have hturn := @turnUses_convTurn σ host e ic st₁ hL₁
    rw [hagain] at hturn
    exact ⟨hturn.2 ▸ hL₁, huses.trans hturn.1⟩
  · rintro st₁ r₁ ⟨hL₁, huses⟩ hleave
    have hturn := @turnUses_convTurn σ host e ic st₁ hL₁
    rw [hleave] at hturn
    exact huses.trans hturn

end Turn

/-! ## The call -/

section Call

variable {host : Endian} {e : Env} {ic : Iconv σ} {cd : σ} {inoffset : Nat}
  {outhead : List UInt8} {linesizemax : UInt32} {s : Sys}

theorem leads_header {evs : List Event}
    (h : Transfers (.read .header) evs ∨ TransferFails (.read .header) evs) :
    Leads Resources.next .reading evs .reading := by
  rcases h with hevs | hevs
  · exact hevs.leads fun _ => rfl
  · exact hevs.leads fun _ _ => rfl

theorem uses_of_opened {cpos : ConvPosition} {s' : Sys}
    (h : OpenOutcome e linesizemax s (.ok cpos, s')) : Uses .start s s' .opened := by
  cases h with
  | opened bom t evs hheader _ =>
      have hseek : Leads Resources.next .reading [.call (.seekSet (bomLength bom)) true,
          .call (.alloc (5 * lineSize linesizemax).toNat) true, .call .usePos true] .opened := rfl
      exact ⟨_, rfl, .cons rfl ((leads_header (hheader.imp And.left And.left)).append hseek)⟩

theorem uses_of_not_opened {ret : Int} {s' : Sys}
    (h : OpenOutcome e linesizemax s (.error ret, s')) :
    ∃ r, r.Released ∧ Uses .start s s' r := by
  cases h with
  | openFails _ => exact ⟨.start, by decide, _, rfl, .cons rfl .nil⟩
  | encoding pos t evs hevs _ =>
      exact ⟨⟨.ended, .unused, .unused⟩, by decide, _, rfl,
        .cons rfl ((leads_header (.inl hevs)).append (.cons rfl .nil))⟩
  | seekFails bom pos t evs hheader _ =>
      exact ⟨⟨.ended, .unused, .unused⟩, by decide, _, rfl,
        .cons rfl ((leads_header hheader).append (.cons rfl (.cons rfl .nil)))⟩

/-- A call returns, and with everything it opened closed once, what it allocated freed
once, and nothing used otherwise than in between. -/
structure GivesBack (call : Nat → Option FileResult) (s : Sys) : Prop where
  returns : ∃ fuel r, call fuel = some r
  released : ∀ fuel r, call fuel = some r → ∃ evs used, r.sys.log = s.log ++ evs ∧
    Leads Resources.next .start evs used ∧ used.Released

/-- With a line buffer that has no end, every call does. -/
theorem givesBack_convdConvFile (host : Endian) (e : Env) (ic : Iconv σ) (cd : σ) (inoffset : Nat)
    (outhead : List UInt8) (linesizemax : UInt32) (s : Sys) :
    GivesBack (fun fuel => convdConvFile host e ic fuel cd inoffset outhead linesizemax s) s := by
  have hcall := convdConvFile_outcome host e ic cd inoffset outhead linesizemax s
  generalize (fun fuel => convdConvFile host e ic fuel cd inoffset outhead linesizemax s)
    = call at hcall ⊢
  have hearly : ∀ {r : FileResult} {used : Resources}, Uses .start s r.sys used →
      used.Released → GivesBack (fun _ => some r) s := by
    rintro r used ⟨evs, hlog, hleads⟩ hreleased
    refine ⟨⟨0, r, rfl⟩, ?_⟩
    rintro fuel _ ⟨⟩
    exact ⟨evs, used, hlog, hleads, hreleased⟩
  cases hcall with
  | openFails ret s' hopen =>
      obtain ⟨used, hreleased, huses⟩ := uses_of_not_opened hopen
      exact hearly huses hreleased
  | createFails cpos s' hopen _ =>
      have hclose : Uses .opened s' (ucsFileReadClose (s'.did .create false))
          ⟨.ended, .unused, .ended⟩ :=
        ⟨[.call .create false, .call .usePos true, .call .closeText true, .call .free true],
          by simp [ucsFileReadClose, fileClose, Sys.did], rfl⟩
      exact hearly ((uses_of_opened hopen).trans hclose) (by decide)
  | headFails cpos s' k t evs hopen hevs _ =>
      have hhead : Uses .opened s' { s' with
          tick := t, out := (outhead.take (toUb4 outhead.length)).take k,
          log := s'.log ++ .call .create true :: evs } .running :=
        ⟨_, rfl, .cons rfl (hevs.leads fun _ _ => rfl)⟩
      exact hearly (((uses_of_opened hopen).trans hhead).trans (uses_closeBoth _)) (by decide)
  | loop cpos s' ok pos t evs hopen hevs _ =>
      have hL := hopen.linesize_ne
      have hskip : Uses .opened s' { s' with
          tick := t, pos := pos, out := outhead.take (toUb4 outhead.length),
          log := s'.log ++ .call .create true ::
            (evs ++ [.call .usePos true, .call (.seekCur (toSb8 inoffset)) ok]) } .running :=
        ⟨_, rfl, .cons rfl ((hevs.leads fun _ => rfl).append rfl)⟩
      refine ⟨?_, fun fuel r hr => ?_⟩
      · apply exists_comm.mp
        exact returns_of_linesize hL (le_toSb8 _) (toSb8_lt _)
      · obtain ⟨evs', hlog, hleads⟩ :=
          ((uses_of_opened hopen).trans hskip).trans (uses_of_returns hL ⟨fuel, hr⟩)
        exact ⟨evs', _, hlog, hleads, by decide⟩

end Call

end Convd
