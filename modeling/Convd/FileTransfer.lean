/-
# `Convd.FileTransfer` — the loops of `file_readbytes` and `file_writebytes`

`Convd.File` has the two functions as they are used: what they read or write, and in which
state they leave the files.  Here they are taken as the loops they are, with the offset into
the caller's buffer, and shown to be these functions; then what they promise, for every
way in which the system splits a transfer and lets calls fail.

    read      the next bytes go to `bytesbuf + cboffset`
    write     the bytes from `bytesbuf + woffset` on are offered
-/
import Convd.ConvTurn
import Convd.Lib.Loop

namespace Convd

open Loop

/-! ## The code -/

/-- The variables of `file_readbytes`. -/
structure ReadState where
  cboffset : Nat
  bytesbuf : Mem UInt8
  sys : Sys

/-- What a call leaves: the result, the buffer, the files. -/
structure ReadResult where
  ret : Int
  bytesbuf : Mem UInt8
  sys : Sys

/-- A turn of `while (cboffset != (size_t)sizebuf)`, and what follows it. -/
def readTurn (e : Env) (dst : Buf) (sizebuf : Nat) (st : ReadState) : Turn ReadState ReadResult :=
  if st.cboffset ≠ sizebuf then
    match e.read dst (sizebuf - st.cboffset) st.sys with
    | (none, s) => .leave ⟨-1, st.bytesbuf, s⟩
    | (some bytes, s) =>
        if bytes.length = 0 then .leave ⟨toInt st.cboffset, st.bytesbuf, s⟩
        else .again ⟨st.cboffset + bytes.length, st.bytesbuf.store st.cboffset bytes, s⟩
  else .leave ⟨toInt st.cboffset, st.bytesbuf, st.sys⟩

/-- A turn of `while (woffset != (off_t)bytestowrite)`, and what follows it. -/
def writeTurn (e : Env) (bytes : List UInt8) (st : Nat × Sys) : Turn (Nat × Sys) (Int × Sys) :=
  if st.1 ≠ bytes.length then
    match e.write (bytes.drop st.1) st.2 with
    | (none, s) => .leave (-1, s)
    | (some cbret, s) => .again (if cbret > 0 then st.1 + cbret else st.1, s)
  else .leave (0, st.2)

/-! ## The functions are these loops -/

theorem length_read_le {e : Env} {dst : Buf} {size : Nat} {s s' : Sys} {bytes : List UInt8}
    (h : e.read dst size s = (some bytes, s')) : bytes.length ≤ size := by
  rw [Env.read] at h
  split at h
  · cases h
  · have hmoved := e.moved_le s.tick (min size (e.file.length - s.pos))
    cases h
    exact Nat.le_trans (List.length_take_le _ _) (by omega)

theorem readTurn_done (e : Env) (dst : Buf) {sizebuf : Nat} (m : Mem UInt8) (s : Sys) :
    readTurn e dst sizebuf ⟨sizebuf, m, s⟩
      = .leave ⟨if true then toInt (sizebuf + ([] : List UInt8).length) else -1,
          m.store sizebuf [], s⟩ := by
  simp only [readTurn, ne_eq, not_true_eq_false, if_false, if_true, Mem.store_nil,
    List.length_nil, Nat.add_zero]

/-- From an offset on: `fuel` is enough for the bytes that are still to come. -/
theorem run_readTurn (e : Env) (dst : Buf) {sizebuf : Nat} : ∀ {fuel off : Nat} (m : Mem UInt8)
    (s : Sys), off ≤ sizebuf → sizebuf - off ≤ fuel →
    ∀ {ok : Bool} {bs : List UInt8} {s' : Sys},
      readLoop e dst fuel (sizebuf - off) s = (ok, bs, s') →
      run (readTurn e dst sizebuf) (fuel + 1) ⟨off, m, s⟩
        = some ⟨if ok then toInt (off + bs.length) else -1, m.store off bs, s'⟩
  | 0, off, m, s, hoff, hfuel, ok, bs, s', hloop => by
      obtain rfl : off = sizebuf := by omega
      rw [readLoop] at hloop
      cases hloop
      exact run_succ_leave (readTurn_done e dst m s)
  | fuel + 1, off, m, s, hoff, hfuel, ok, bs, s', hloop => by
      rw [readLoop] at hloop
      split at hloop
      · cases hloop
        obtain rfl : off = sizebuf := by omega
        exact run_succ_leave (readTurn_done e dst m s)
      · rename_i hmore
        have hne : off ≠ sizebuf := by omega
        generalize hread : e.read dst (sizebuf - off) s = r at hloop
        rcases r with ⟨_ | _ | ⟨b, got⟩, s₁⟩
        · cases hloop
          apply run_succ_leave
          simp only [readTurn, if_pos hne, hread, Mem.store_nil, Bool.false_eq_true, if_false]
        · cases hloop
          apply run_succ_leave
          simp only [readTurn, if_pos hne, hread, Mem.store_nil, List.length_nil, Nat.add_zero,
            if_true]
        · have hgot : got.length + 1 ≤ sizebuf - off := by
            have hlen := length_read_le hread
            rwa [List.length_cons] at hlen
          have hturn : readTurn e dst sizebuf ⟨off, m, s⟩
              = .again ⟨off + (got.length + 1), m.store off (b :: got), s₁⟩ := by
            simp only [readTurn, if_pos hne, hread, List.length_cons, Nat.succ_ne_zero, if_false]
          have hrest : sizebuf - off - (got.length + 1) = sizebuf - (off + (got.length + 1)) := by
            omega
          have hstore := fun bs' => Mem.store_append m off (b :: got) bs'
          simp only [hrest] at hloop
          generalize hnext : readLoop e dst fuel (sizebuf - (off + (got.length + 1))) s₁ = rest
            at hloop
          obtain ⟨ok', bs', s₂⟩ := rest
          have ih := run_readTurn e dst (m.store off (b :: got)) s₁ (by omega) (by omega) hnext
          cases hloop
          rw [run_succ_again hturn, ih, ← hstore, List.length_append, List.length_cons,
            Nat.add_assoc]

theorem put_le {e : Env} {bytes : List UInt8} {s s' : Sys} {put : Nat}
    (h : e.write bytes s = (some put, s')) : put ≤ bytes.length ∧ (0 < bytes.length → 0 < put) := by
  rw [Env.write] at h
  split at h
  · cases h
  · cases h
    exact ⟨e.moved_le _ _, e.moved_pos _⟩

theorem run_writeTurn (e : Env) {bytes : List UInt8} : ∀ {fuel off : Nat} (s : Sys),
    off ≤ bytes.length → bytes.length - off ≤ fuel →
    ∀ {ok : Bool} {s' : Sys}, writeLoop e fuel (bytes.drop off) s = (ok, s') →
      run (writeTurn e bytes) (fuel + 1) (off, s) = some (if ok then 0 else -1, s')
  | 0, off, s, hoff, hfuel, ok, s', hloop => by
      obtain rfl : off = bytes.length := by omega
      rw [writeLoop] at hloop
      cases hloop
      apply run_succ_leave
      simp only [writeTurn, ne_eq, not_true_eq_false, if_false, if_true]
  | fuel + 1, off, s, hoff, hfuel, ok, s', hloop => by
      rw [writeLoop, List.length_drop] at hloop
      split at hloop
      · cases hloop
        obtain rfl : off = bytes.length := by omega
        apply run_succ_leave
        simp only [writeTurn, ne_eq, not_true_eq_false, if_false, if_true]
      · rename_i hmore
        have hne : off ≠ bytes.length := by omega
        generalize hwrite : e.write (bytes.drop off) s = r at hloop
        rcases r with ⟨_ | put, s₁⟩
        · cases hloop
          apply run_succ_leave
          simp only [writeTurn, ne_eq, hne, not_false_eq_true, if_true, hwrite, Bool.false_eq_true,
            if_false]
        · obtain ⟨hle, hpos⟩ := put_le hwrite
          rw [List.length_drop] at hle hpos
          have hput : 0 < put := hpos (by omega)
          have hturn : writeTurn e bytes (off, s) = .again (off + put, s₁) := by
            simp only [writeTurn, ne_eq, hne, not_false_eq_true, if_true, hwrite, if_pos hput]
          have hloop' : writeLoop e fuel (bytes.drop (off + put)) s₁ = (ok, s') := by
            rw [← List.drop_drop]
            exact hloop
          rw [run_succ_again hturn]
          exact run_writeTurn e s₁ (by omega) (by omega) hloop'

/-! ## What they promise -/

/-- What is promised of `file_readbytes`, `evs` being the calls it made. -/
structure ReadsBytes (e : Env) (sizebuf : Nat) (buf : Mem UInt8) (s : Sys) (evs : List Event)
    (r : ReadResult) : Prop where
  log_eq : r.sys.log = s.log ++ evs
  out_eq : r.sys.out = s.out
  bytes : AllOk evs → r.ret = (min sizebuf (e.file.length - s.pos) : Nat) ∧
    r.bytesbuf = buf.store 0 ((e.file.drop s.pos).take sizebuf) ∧
    r.sys.pos = s.pos + min sizebuf (e.file.length - s.pos)
  error : ¬ AllOk evs → r.ret = -1

/-- What is promised of `file_writebytes`. -/
structure WritesBytes (bytes : List UInt8) (s : Sys) (evs : List Event) (r : Int × Sys) :
    Prop where
  log_eq : r.2.log = s.log ++ evs
  pos_eq : r.2.pos = s.pos
  bytes : AllOk evs → r.1 = 0 ∧ r.2.out = s.out ++ bytes
  error : ¬ AllOk evs → r.1 = -1

theorem TransferFails.not_allOk {op : Nat → Op} {evs : List Event} (h : TransferFails op evs) :
    ¬ AllOk evs := by
  obtain ⟨oks, n, rfl, -⟩ := h
  intro hok
  exact Bool.false_ne_true (hok _ (List.mem_append_right _ List.mem_cons_self))

theorem readTurn_reads (e : Env) (dst : Buf) {sizebuf : Nat} (hsize : sizebuf < 2 ^ 31)
    (buf : Mem UInt8) (s : Sys) : ∃ r evs,
    (∀ fuel, sizebuf < fuel → run (readTurn e dst sizebuf) fuel ⟨0, buf, s⟩ = some r) ∧
      ReadsBytes e sizebuf buf s evs r := by
  have hloop := readLoop_outcome e dst s (Nat.le_refl sizebuf)
  generalize hr : readLoop e dst sizebuf sizebuf s = r at hloop
  obtain ⟨ok, bs, s'⟩ := r
  have hrun := run_readTurn e dst buf s (Nat.zero_le sizebuf) (Nat.le_refl sizebuf) hr
  rw [Nat.zero_add] at hrun
  have hlen : ((e.file.drop s.pos).take sizebuf).length
      = min sizebuf (e.file.length - s.pos) := by
    rw [List.length_take, List.length_drop]
  cases hloop with
  | read t evs hevs =>
      refine ⟨_, evs, fun fuel hfuel => run_mono hfuel hrun, rfl, rfl, fun _ => ⟨?_, rfl, ?_⟩, ?_⟩
      · simp only [if_true]
        rw [toInt_of_lt (by omega), hlen]
      · rw [← hlen]
      · exact fun hfail => absurd hevs.allOk hfail
  | fails k t evs hevs hfault hk =>
      refine ⟨_, evs, fun fuel hfuel => run_mono hfuel hrun, rfl, rfl, ?_, fun _ => rfl⟩
      exact fun hok => absurd hok hevs.not_allOk

theorem writeTurn_writes (e : Env) (bytes : List UInt8) (s : Sys) : ∃ r evs,
    (∀ fuel, bytes.length < fuel → run (writeTurn e bytes) fuel (0, s) = some r) ∧
      WritesBytes bytes s evs r := by
  have hloop := writeLoop_outcome e s (Nat.le_refl bytes.length)
  generalize hr : writeLoop e bytes.length bytes s = r at hloop
  obtain ⟨ok, s'⟩ := r
  have hrun := run_writeTurn e s (Nat.zero_le bytes.length) (Nat.le_refl bytes.length) hr
  cases hloop with
  | wrote t evs hevs =>
      refine ⟨_, evs, fun fuel hfuel => run_mono hfuel hrun, rfl, rfl, fun _ => ⟨rfl, rfl⟩, ?_⟩
      exact fun hfail => absurd hevs.allOk hfail
  | fails k t evs hevs hfault =>
      refine ⟨_, evs, fun fuel hfuel => run_mono hfuel hrun, rfl, rfl, ?_, fun _ => rfl⟩
      exact fun hok => absurd hok hevs.not_allOk

/-- Both functions, whatever the system does. -/
theorem transfers_exact (e : Env) (dst : Buf) {sizebuf : Nat} (hsize : sizebuf < 2 ^ 31)
    (buf : Mem UInt8) (bytes : List UInt8) (s : Sys) :
    (∃ r evs,
      (∀ fuel, sizebuf < fuel → run (readTurn e dst sizebuf) fuel ⟨0, buf, s⟩ = some r) ∧
        ReadsBytes e sizebuf buf s evs r) ∧
    ∃ r evs, (∀ fuel, bytes.length < fuel → run (writeTurn e bytes) fuel (0, s) = some r) ∧
      WritesBytes bytes s evs r :=
  ⟨readTurn_reads e dst hsize buf s, writeTurn_writes e bytes s⟩

/-- A byte at a time. -/
theorem transfers_exact_bytewise :
    (∃ r evs, (∀ fuel, 5 < fuel → run (readTurn (Env.bytewise (ascii "abc") (by decide)
        fun _ => false) .linebuf 5) fuel ⟨0, fun _ => 0, Sys.init⟩ = some r) ∧
      ReadsBytes (Env.bytewise (ascii "abc") (by decide) fun _ => false) 5 (fun _ => 0) Sys.init
        evs r) ∧
    ∃ r evs, (∀ fuel, (ascii "xy").length < fuel →
        run (writeTurn (Env.bytewise (ascii "abc") (by decide) fun _ => false) (ascii "xy")) fuel
          (0, Sys.init) = some r) ∧
      WritesBytes (ascii "xy") Sys.init evs r :=
  transfers_exact _ _ (by decide) _ _ _

end Convd
