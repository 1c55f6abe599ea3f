/-
# `Convd.ConvTurn` — one turn of the loop of `convd_conv_file`

A turn reads a line, converts it and writes it, or leaves.  `TurnOutcome` lists what
a turn can come to, with what it does to the output and to the log; every result
about runs goes through `convTurn_outcome`, and none unfolds the turn again.

    leaves with         because
    `CONVD_ERR_FILE`    a read, the seek or a write failed
    `CONVD_NOERROR`     nothing is ahead, or the line ahead is empty
    `CONVD_ERR_ICONV`   the converter refused the chunk

The chunk is a line (`ChunkFrom.line`), or five bytes of a buffer that was found
insufficient (`ChunkFrom.insuff`): the error code is positive, and taken for a length.
-/
import Convd.ConvFile

namespace Convd

open Loop

variable {σ : Type}

/-! ## Lists of events -/

section Events

variable {evs evs' : List Event} {input : List UInt8}

@[simp] theorem handed_nil : handed [] = [] := rfl

@[simp] theorem handed_call (op : Op) (ok : Bool) : handed (.call op ok :: evs) = handed evs := rfl

@[simp] theorem handed_readNext (ret : Int) : handed (.readNext ret :: evs) = handed evs := rfl

@[simp] theorem handed_convText : handed (.convText input :: evs) = input :: handed evs := rfl

@[simp] theorem handed_append : handed (evs ++ evs') = handed evs ++ handed evs' :=
  List.filterMap_append

@[simp] theorem allOk_nil : AllOk [] := fun _ h => nomatch h

@[simp] theorem allOk_cons {ev : Event} : AllOk (ev :: evs) ↔ ev.ok = true ∧ AllOk evs :=
  List.forall_mem_cons

@[simp] theorem allOk_append : AllOk (evs ++ evs') ↔ AllOk evs ∧ AllOk evs' :=
  List.forall_mem_append

@[simp] theorem droppedOk_cons {ev : Event} :
    DroppedOk (ev :: evs) ↔ (ev.dropped = true → ev.ok = true) ∧ DroppedOk evs :=
  List.forall_mem_cons

@[simp] theorem droppedOk_append : DroppedOk (evs ++ evs') ↔ DroppedOk evs ∧ DroppedOk evs' :=
  List.forall_mem_append

@[simp] theorem noticedFails_nil : ¬ NoticedFails [] := fun ⟨_, h, _⟩ => nomatch h

@[simp] theorem noticedFails_cons {ev : Event} :
    NoticedFails (ev :: evs) ↔ (ev.dropped = false ∧ ev.ok = false) ∨ NoticedFails evs :=
  List.exists_mem_cons_iff _ _ _

@[simp] theorem noticedFails_append :
    NoticedFails (evs ++ evs') ↔ NoticedFails evs ∨ NoticedFails evs' := by
  constructor
  · rintro ⟨ev, hev, hfail⟩
    exact (List.mem_append.mp hev).imp (⟨ev, ·, hfail⟩) (⟨ev, ·, hfail⟩)
  · rintro (⟨ev, hev, hfail⟩ | ⟨ev, hev, hfail⟩)
    · exact ⟨ev, List.mem_append_left _ hev, hfail⟩
    · exact ⟨ev, List.mem_append_right _ hev, hfail⟩

theorem AllOk.droppedOk (h : AllOk evs) : DroppedOk evs := fun ev hev _ => h ev hev

theorem AllOk.not_noticed (h : AllOk evs) : ¬ NoticedFails evs := by
  rintro ⟨ev, hev, -, hfail⟩
  rw [h ev hev] at hfail
  cases hfail

/-- A list of events without failure is one where neither kind of operation failed. -/
theorem allOk_iff : AllOk evs ↔ DroppedOk evs ∧ ¬ NoticedFails evs := by
  constructor
  · exact fun h => ⟨h.droppedOk, h.not_noticed⟩
  · rintro ⟨hdropped, hnoticed⟩ ev hev
    cases hd : ev.dropped with
    | true => exact hdropped ev hev hd
    | false => exact Bool.of_not_eq_false fun hfail => hnoticed ⟨ev, hev, hd, hfail⟩

theorem Transfers.allOk {op : Nat → Op} (h : Transfers op evs) : AllOk evs := by
  intro ev hev
  obtain ⟨n, rfl⟩ := h ev hev
  rfl

theorem Transfers.handed {op : Nat → Op} : ∀ {evs : List Event}, Transfers op evs →
    handed evs = []
  | [], _ => rfl
  | ev :: evs, h => by
      obtain ⟨n, hn⟩ := h ev List.mem_cons_self
      have htail : Transfers op evs := fun ev' h' => h ev' (List.mem_cons_of_mem _ h')
      rw [hn]
      exact htail.handed

theorem TransferFails.handed {op : Nat → Op} (h : TransferFails op evs) : handed evs = [] := by
  obtain ⟨oks, n, rfl, hoks⟩ := h
  rw [handed_append, hoks.handed]
  rfl

theorem TransferFails.noticed {op : Nat → Op} (h : TransferFails op evs)
    (hop : ∀ n, Event.dropped (.call (op n) false) = false) : NoticedFails evs := by
  obtain ⟨oks, n, rfl, -⟩ := h
  exact ⟨_, List.mem_append_right _ List.mem_cons_self, hop n, rfl⟩

theorem TransferFails.not_droppedOk {op : Nat → Op} (h : TransferFails op evs)
    (hop : ∀ n, Event.dropped (.call (op n) false) = true) : ¬ DroppedOk evs := by
  obtain ⟨oks, n, rfl, -⟩ := h
  intro hall
  exact nomatch hall _ (List.mem_append_right _ List.mem_cons_self) (hop n)

theorem TransferFails.not_noticed {op : Nat → Op} (h : TransferFails op evs)
    (hop : ∀ n, Event.dropped (.call (op n) false) = true) : ¬ NoticedFails evs := by
  obtain ⟨oks, n, rfl, hoks⟩ := h
  rw [noticedFails_append, noticedFails_cons, hop n]
  rintro (h | ⟨h, -⟩ | h)
  · exact hoks.allOk.not_noticed h
  · cases h
  · exact noticedFails_nil h

@[simp] theorem allOk_convCalls : AllOk (convCalls input) := by simp [convCalls, Event.ok]

@[simp] theorem handed_convCalls : handed (convCalls input) = [input] := rfl

theorem ConvFails.noticed (h : ConvFails input evs) : NoticedFails evs := by
  rcases h with rfl | rfl <;> simp [Event.ok, Event.dropped]

theorem ConvFails.handed (h : ConvFails input evs) : handed evs = [input] := by
  rcases h with rfl | rfl <;> rfl

end Events

/-! ## Closing -/

/-- The events of `closeBoth`. -/
def closing : List Event :=
  [.call .closeOut true, .call .usePos true, .call .closeText true, .call .free true]

theorem closeBoth_log (s : Sys) : (closeBoth s).log = s.log ++ closing := by
  simp [closeBoth, ucsFileReadClose, fileClose, Sys.did, closing]

@[simp] theorem closeBoth_out (s : Sys) : (closeBoth s).out = s.out := rfl

@[simp] theorem allOk_closing : AllOk closing := by simp [closing, Event.ok]

@[simp] theorem handed_closing : handed closing = [] := rfl

/-! ## A turn -/

/-- How a turn comes to a chunk: where `offset` and the file stand then, and the events
so far. -/
inductive ChunkFrom (host : Endian) (e : Env) (cpos : ConvPosition) (s : Sys)
    (input : List UInt8) : Int → Nat → List Event → Prop where
  | line (evs : List Event) :
      nextLine host cpos.bom cpos.linesize.toNat (e.file.drop s.pos) = .line input →
      input ≠ [] → 0 ≤ cpos.stop input → AllOk evs →
      ChunkFrom host e cpos s input (cpos.stop input) (cpos.stop input).toNat evs
  | lost (evs : List Event) :
      nextLine host cpos.bom cpos.linesize.toNat (e.file.drop s.pos) = .line input →
      input ≠ [] → cpos.stop input = -1 → ¬ NoticedFails evs →
      ChunkFrom host e cpos s input (-1)
        (s.pos + ((e.file.drop s.pos).take cpos.linesize.toNat).length) evs
  | insuff (evs : List Event) :
      nextLine host cpos.bom cpos.linesize.toNat (e.file.drop s.pos) = .insuff →
      input.length = 5 → AllOk evs →
      ChunkFrom host e cpos s input cpos.offset
        (s.pos + ((e.file.drop s.pos).take cpos.linesize.toNat).length)
        (evs ++ [.readNext convdErrInsuff])

/-- What a turn comes to. -/
inductive TurnOutcome (host : Endian) (e : Env) (ic : Iconv σ) (st : LoopState σ) :
    Turn (LoopState σ) FileResult → Prop where
  | fileFails (s : Sys) (evs : List Event) :
      s.log = st.sys.log ++ evs → s.out = st.sys.out → NoticedFails evs → handed evs = [] →
      ((∃ t, e.fails t = true) ∨ ∃ bytes, st.cpos.stop bytes < 0 ∧
        nextLine host st.cpos.bom st.cpos.linesize.toNat (e.file.drop st.sys.pos) = .line bytes) →
      TurnOutcome host e ic st (.leave ⟨convdErrFile, none, s⟩)
  | finished (s : Sys) (evs : List Event) :
      s.log = st.sys.log ++ evs → s.out = st.sys.out → ¬ NoticedFails evs →
      (0 ≤ st.cpos.stop [] → AllOk evs) → handed evs = [] →
      (nextLine host st.cpos.bom st.cpos.linesize.toNat (e.file.drop st.sys.pos) = .finished ∨
        nextLine host st.cpos.bom st.cpos.linesize.toNat (e.file.drop st.sys.pos) = .line []) →
      TurnOutcome host e ic st (.leave ⟨convdNoerror, some st.outfdsize, s⟩)
  | refused (input : List UInt8) (offset : Int) (pos : Nat) (s : Sys) (evs evs' : List Event) :
      ChunkFrom host e st.cpos st.sys input offset pos evs → handed evs = [] →
      ic.text st.cd input (st.cpos.linesize * 4).toNat = none → ConvFails input evs' →
      s.log = st.sys.log ++ (evs ++ .call .usePos true :: (evs' ++ closing)) →
      s.out = st.sys.out →
      TurnOutcome host e ic st (.leave ⟨convdErrIconv, none, s⟩)
  | writeFails (input out : List UInt8) (offset : Int) (pos k : Nat) (s : Sys)
      (evs evs' : List Event) :
      ChunkFrom host e st.cpos st.sys input offset pos evs → handed evs = [] →
      ic.text st.cd input (st.cpos.linesize * 4).toNat = some out →
      TransferFails .write evs' → (∃ t, e.fails t = true) →
      s.log = st.sys.log ++
        (evs ++ .call .usePos true :: (convCalls input ++ evs' ++ closing)) →
      s.out = st.sys.out ++ out.take k →
      TurnOutcome host e ic st (.leave ⟨convdErrFile, none, s⟩)
  | written (input out : List UInt8) (st' : LoopState σ) (evs evs' : List Event) :
      ChunkFrom host e st.cpos st.sys input st'.cpos.offset st'.sys.pos evs →
      handed evs = [] → ic.text st.cd input (st.cpos.linesize * 4).toNat = some out →
      Transfers .write evs' →
      st'.cpos.bom = st.cpos.bom → st'.cpos.linesize = st.cpos.linesize →
      st'.outfdsize = (st.outfdsize + out.length) % 2 ^ 64 →
      st'.sys.log = st.sys.log ++ (evs ++ .call .usePos true :: (convCalls input ++ evs')) →
      st'.sys.out = st.sys.out ++ out →
      TurnOutcome host e ic st (.again st')

section Turn

variable {host : Endian} {e : Env} {ic : Iconv σ} {st : LoopState σ}

/-- A turn whose reader returned a positive number. -/
theorem turnOutcome_of_chunk {n : Nat} {cpos : ConvPosition} {s : Sys} {evs : List Event}
    (hread : ucsFileReadNext host e st.cpos st.sys = ((n : Int), cpos, s)) (hn : 0 < n)
    (hfrom : ChunkFrom host e st.cpos st.sys (cpos.linebuf.load 0 n) cpos.offset s.pos evs)
    (hlog : s.log ++ [.readNext n] = st.sys.log ++ evs) (hnone : handed evs = [])
    (hout : s.out = st.sys.out) (hbom : cpos.bom = st.cpos.bom)
    (hsize : cpos.linesize = st.cpos.linesize) :
    TurnOutcome host e ic st (convTurn host e ic st) := by
  have hturn : convTurn host e ic st
      = convChunk e ic cpos st.cd st.outfdsize n (s.note (.readNext n)) := by
    simp only [convTurn, hread]
    exact if_pos (Int.natCast_pos.mpr hn)
  have hcat : ∀ evs', s.log ++ [.readNext n] ++ evs' = st.sys.log ++ (evs ++ evs') := by
    intro evs'
    rw [hlog, List.append_assoc]
  have hchunk := convChunk_outcome e ic cpos st.cd st.outfdsize n (s.note (.readNext n))
  rw [hturn]
  rw [Int.toNat_natCast] at hchunk
  generalize convChunk e ic cpos st.cd st.outfdsize n (s.note (.readNext n)) = turn at hchunk
  cases hchunk with
  | refused t evs' htext hfails =>
      rw [hsize] at htext
      refine .refused _ _ _ _ _ _ hfrom hnone htext hfails ?_ hout
      rw [closeBoth_log]
      show s.log ++ [.readNext n] ++ .call .usePos true :: evs' ++ closing = _
      rw [hcat, List.append_assoc, List.append_assoc, List.cons_append]
  | writeFails out k t evs' htext hevs hfault =>
      rw [hsize] at htext
      refine .writeFails _ out _ _ k _ _ _ hfrom hnone htext hevs hfault ?_ ?_
      · rw [closeBoth_log]
        show s.log ++ [.readNext n] ++ .call .usePos true :: (convCalls _ ++ evs') ++ closing = _
        rw [hcat, List.append_assoc, List.append_assoc, List.cons_append]
      · rw [← hout]
        rfl
  | written out m cd t evs' htext hevs =>
      rw [hsize] at htext
      refine .written _ out _ _ _ hfrom hnone htext hevs hbom hsize rfl (hcat _) ?_
      rw [← hout]
      rfl

theorem convTurn_outcome (hL : st.cpos.linesize ≠ 0xFFFFFFFF) :
    TurnOutcome host e ic st (convTurn host e ic st) := by
  have hnext := readNext_outcome host e st.sys hL
  rcases hread : ucsFileReadNext host e st.cpos st.sys with ⟨n, cpos, s⟩
  rw [hread] at hnext
  have hleave : n ≤ 0 → convTurn host e ic st = .leave ⟨n,
      if n = convFinished then some st.outfdsize else none, closeBoth (s.note (.readNext n))⟩ := by
    intro hn
    simp only [convTurn, hread]
    exact if_neg (Int.not_lt.mpr hn)
  have hlog : ∀ evs : List Event, s.log = st.sys.log ++ evs →
      (closeBoth (s.note (.readNext n))).log = st.sys.log ++ (evs ++ .readNext n :: closing) := by
    intro evs hs
    rw [closeBoth_log, Sys.note, hs, List.append_assoc, List.append_assoc, List.singleton_append]
  cases hnext with
  | readFails m k t evs hevs hfault =>
      rw [hleave (by decide)]
      have hnoticed := hevs.noticed fun _ => rfl
      refine .fileFails _ _ (hlog _ rfl) rfl ?_ ?_ (.inl hfault)
      · simp [hnoticed]
      · simp [hevs.handed]
  | seekFails bytes m k t evs hevs hline hlost hfault =>
      rw [hleave (by decide)]
      have hdropped : Event.dropped (.call (.seekSet (st.cpos.stop bytes)) false) = false :=
        beq_eq_false_iff_ne.mpr hlost
      refine .fileFails _ _ (hlog _ rfl) rfl ?_ ?_ (hfault.imp_right fun h => ⟨bytes, h, hline⟩)
      · simp [hdropped, Event.ok]
      · simp [hevs.handed]
  | finished m t evs hevs hfin =>
      rw [hleave (Int.le_refl 0)]
      have hok : AllOk (.call .usePos true :: evs ++ .readNext convFinished :: closing) := by
        simp [Event.ok, hevs.allOk]
      refine .finished _ _ (hlog _ rfl) rfl hok.not_noticed (fun _ => hok) ?_ (.inl hfin)
      simp [hevs.handed]
  | insuff m t evs hevs hins =>
      have hlen : ∀ m : Mem UInt8, (m.load 0 5).length = 5 := fun m => Mem.length_load m 0 5
      have hok : AllOk (.call .usePos true :: evs) := by simp [Event.ok, hevs.allOk]
      have hcat : ∀ l : List Event, l ++ .call .usePos true :: evs ++ [.readNext convdErrInsuff]
          = l ++ (.call .usePos true :: evs ++ [.readNext convdErrInsuff]) :=
        fun l => List.append_assoc _ _ _
      refine turnOutcome_of_chunk (n := 5) hread (by decide) (.insuff _ hins (hlen _) hok)
        (hcat _) ?_ rfl rfl rfl
      simp [hevs.handed]
  | line bytes m t evs hevs hline hm h0 =>
      by_cases hnil : bytes = []
      · subst hnil
        rw [hleave (Int.le_refl 0)]
        have hok : AllOk (.call .usePos true :: (evs ++ [.call (.seekSet (st.cpos.stop [])) true])
            ++ .readNext ([] : List UInt8).length :: closing) := by simp [Event.ok, hevs.allOk]
        refine .finished _ _ (hlog _ rfl) rfl hok.not_noticed (fun _ => hok) ?_ (.inr hline)
        simp [hevs.handed]
      · have hok : AllOk (.call .usePos true ::
            (evs ++ [.call (.seekSet (st.cpos.stop bytes)) true]) ++ [.readNext bytes.length]) := by
          simp [Event.ok, hevs.allOk]
        refine turnOutcome_of_chunk hread (List.length_pos_iff.mpr hnil) ?_
          (List.append_assoc _ _ _) ?_ rfl rfl rfl
        · rw [hm]
          exact .line _ hline hnil h0 hok
        · simp [hevs.handed]
  | seekLost bytes m t evs hevs hline hm hlost =>
      have hquiet : ∀ evs' : List Event, AllOk evs' → ¬ NoticedFails (.call .usePos true ::
          (evs ++ [.call (.seekSet (st.cpos.stop bytes)) false]) ++ evs') := by
        intro evs' hevs'
        simp [hlost, hevs.allOk.not_noticed, hevs'.not_noticed, Event.dropped, Event.ok]
      by_cases hnil : bytes = []
      · subst hnil
        rw [hleave (Int.le_refl 0)]
        refine .finished _ _ (hlog _ rfl) rfl (hquiet _ (by simp [Event.ok])) ?_ ?_ (.inr hline)
        · rw [hlost]
          exact fun h => absurd h (by decide)
        · simp [hevs.handed]
      · refine turnOutcome_of_chunk hread (List.length_pos_iff.mpr hnil) ?_
          (List.append_assoc _ _ _) ?_ rfl rfl rfl
        · rw [hm, hlost]
          have hquiet' := hquiet [.readNext bytes.length] (by simp [Event.ok])
          exact .lost _ hline hnil hlost (hlost ▸ hquiet')
        · simp [hevs.handed]

end Turn

end Convd
