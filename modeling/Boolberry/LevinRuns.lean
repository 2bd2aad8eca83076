import Boolberry.Levin
import Boolberry.Lib.Framing
import Mathlib.Data.List.Perm.Basic

/-!
# Runs of levin connections

What a connection takes off the stream does not depend on how the stream is cut, and the callback of every
call is called.
-/

namespace Boolberry
namespace Levin

open Framing

theorem length_bytes (h : Head) : h.bytes.length = HEAD_SIZE := by
  simp only [Head.bytes, List.length_append, List.length_cons, length_podBytes]
  rfl

theorem readHead_append {a b c d e g : Blob} (flag : UInt8) (ha : a.length = 8) (hb : b.length = 8)
    (hc : c.length = 4) (hd : d.length = 4) (he : e.length = 4) (hg : g.length = 4) :
    readHead (a ++ (b ++ flag :: (c ++ (d ++ (e ++ g))))) =
      { m_signature := UInt64.ofNat (podValue a)
        m_cb := UInt64.ofNat (podValue b)
        m_have_to_return_data := decide (flag ≠ 0)
        m_command := UInt32.ofNat (podValue c)
        m_return_code := (UInt32.ofNat (podValue d)).toInt32
        m_flags := UInt32.ofNat (podValue e)
        m_protocol_version := UInt32.ofNat (podValue g) } := by
  set l := a ++ (b ++ flag :: (c ++ (d ++ (e ++ g)))) with hl
  have h8 : l.drop 8 = b ++ flag :: (c ++ (d ++ (e ++ g))) := List.drop_left' ha
  have h16 : l.drop 16 = flag :: (c ++ (d ++ (e ++ g))) := by
    rw [show 16 = 8 + 8 from rfl, ← List.drop_drop, h8, List.drop_left' hb]
  have h17 : l.drop 17 = c ++ (d ++ (e ++ g)) := by
    rw [show 17 = 16 + 1 from rfl, ← List.drop_drop, h16, List.drop_one, List.tail_cons]
  have h21 : l.drop 21 = d ++ (e ++ g) := by
    rw [show 21 = 17 + 4 from rfl, ← List.drop_drop, h17, List.drop_left' hc]
  have h25 : l.drop 25 = e ++ g := by
    rw [show 25 = 21 + 4 from rfl, ← List.drop_drop, h21, List.drop_left' hd]
  have h29 : l.drop 29 = g := by
    rw [show 29 = 25 + 4 from rfl, ← List.drop_drop, h25, List.drop_left' he]
  rw [readHead, h8, h16, h17, h21, h25, h29, hl, List.take_left' ha, List.take_left' hb,
    List.take_left' hc, List.take_left' hd, List.take_left' he, List.take_of_length_le hg.le]
  rfl

theorem readHead_bytes (h : Head) : readHead h.bytes = h := by
  have hpod8 (x : UInt64) : UInt64.ofNat (podValue (podBytes 8 x.toNat)) = x := by
    rw [podValue_podBytes x.toNat_lt, UInt64.ofNat_toNat]
  have hpod4 (x : UInt32) : UInt32.ofNat (podValue (podBytes 4 x.toNat)) = x := by
    rw [podValue_podBytes x.toNat_lt, UInt32.ofNat_toNat]
  have hflag (b : Bool) : decide ((if b then (1 : UInt8) else 0) ≠ 0) = b := by cases b <;> decide
  rw [Head.bytes, readHead_append _ (length_podBytes _ _) (length_podBytes _ _) (length_podBytes _ _)
    (length_podBytes _ _) (length_podBytes _ _) (length_podBytes _ _), hpod8, hpod8, hpod4, hpod4, hpod4,
    hpod4, hflag, Int32.toInt32_toUInt32]

/-- The length of the body behind a head. -/
def bodyLength (raw : Blob) : ℕ := (readHead raw).m_cb.toNat

abbrev WholeBytes (p : Blob × Blob) : Prop := Whole HEAD_SIZE bodyLength p

def decode (p : Blob × Blob) : Packet := ⟨readHead p.1, p.2⟩

def encode (p : Packet) : Blob × Blob := (p.head.bytes, p.body)

theorem decode_encode (p : Packet) : decode (encode p) = p := by
  rw [decode, encode, readHead_bytes]

theorem whole_encode {p : Packet} (h : p.body.length = p.head.m_cb.toNat) : WholeBytes (encode p) :=
  ⟨length_bytes p.head, by rw [bodyLength, encode, readHead_bytes, h]⟩

/-- What is behind the packets that were taken: the cache, or before it the head that was read. -/
def Behind (max : ℕ) (c : Conn) (tail : Blob) : Prop :=
  match c.m_state with
  | .head => tail = c.m_cache_in_buffer
  | .body => ∃ raw, raw.length = HEAD_SIZE ∧ readHead raw = c.m_current_head ∧
      tail = raw ++ c.m_cache_in_buffer ∧ c.m_oponent_protocol_ver = c.m_current_head.m_protocol_version ∧
        c.m_current_head.m_signature = LEVIN_SIGNATURE ∧ c.m_current_head.m_cb.toNat ≤ max

/-- There is no whole head or body in the cache. -/
def Paused (c : Conn) : Prop :=
  match c.m_state with
  | .head => c.m_cache_in_buffer.length < HEAD_SIZE
  | .body => c.m_cache_in_buffer.length < c.m_current_head.m_cb.toNat

theorem Behind.short {max : ℕ} {c : Conn} {tail : Blob} (h : Behind max c tail) (hpaused : Paused c) :
    Short HEAD_SIZE bodyLength tail := by
  unfold Behind at h
  unfold Paused at hpaused
  split at h
  · rename_i hstate
    rw [hstate] at hpaused
    exact h ▸ short_of_length_lt_head hpaused
  · rename_i hstate
    rw [hstate] at hpaused
    obtain ⟨raw, hlen, hread, rfl, -⟩ := h
    exact short_of_length_lt_body hlen (by rwa [bodyLength, hread])

def Unread (max : ℕ) (c : Conn) (tail : Blob) : Prop :=
  match c.control with
  | .stopped _ => True
  | .invoking _ => tail = c.m_cache_in_buffer ∧ c.m_current_head.m_signature = LEVIN_SIGNATURE
  | .loop => Behind max c tail
  | .idle => Behind max c tail ∧ Paused c

/-- The packets taken are those at the front of the stream that was read. -/
def Framed (max : ℕ) (c : Conn) : Prop :=
  ∃ (raws : List (Blob × Blob)) (tail : Blob), (∀ p ∈ raws, WholeBytes p) ∧ raws.map decode = c.taken ∧
    c.received = raws.flatMap bytes ++ tail ∧ Unread max c tail

/-- The part of a connection that reading uses. -/
def Conn.input (c : Conn) : Blob × StreamState × Head × UInt32 × Control × Blob × List Packet :=
  (c.m_cache_in_buffer, c.m_state, c.m_current_head, c.m_oponent_protocol_ver, c.control, c.received, c.taken)

theorem Framed.of_input {max : ℕ} {c c' : Conn} (h : Framed max c) (heq : c'.input = c.input) :
    Framed max c' := by
  simp only [Conn.input, Prod.mk.injEq] at heq
  obtain ⟨hcache, hstate, hhead, hver, hcontrol, hreceived, htaken⟩ := heq
  obtain ⟨raws, tail, hraws, hdecode, hrec, hunread⟩ := h
  refine ⟨raws, tail, hraws, hdecode.trans htaken.symm, hreceived.trans hrec, ?_⟩
  simpa only [Unread, Behind, Paused, hcache, hstate, hhead, hver, hcontrol] using hunread

theorem input_asyncInvoke (c : Conn) (command : UInt32) (buff : Blob) (headOk refOk bodyOk : Bool) :
    (c.asyncInvoke command buff headOk refOk bodyOk).input = c.input := by
  unfold Conn.asyncInvoke
  dsimp only
  split_ifs <;> rfl

theorem input_notify (c : Conn) (command : UInt32) (buff : Blob) (headOk bodyOk : Bool) :
    (c.notify command buff headOk bodyOk).input = c.input := by
  unfold Conn.notify
  dsimp only
  split_ifs <;> rfl

theorem timeout_eq_some {c c' : Conn} {i : ℕ} (h : c.timeout i = some c') :
    ∃ a, c.m_invoke_response_handlers[i]? = some a ∧ a.m_timer = .running ∧
      c' = { c with
        m_invoke_response_handlers := c.m_invoke_response_handlers.set i { a with m_timer := .expired }
        failed := c.failed ++ [(a.m_cb, LEVIN_ERROR_CONNECTION_TIMEDOUT)]
        m_close_called := true } := by
  unfold Conn.timeout at h
  split at h
  · rename_i a ha
    obtain ⟨hrun, h⟩ := Option.ite_none_right_eq_some.mp h
    exact ⟨a, ha, hrun, (Option.some.inj h).symm⟩
  · cases h

theorem ret_eq_some {max : ℕ} {c c' : Conn} {code : Int32} {buff : Blob} {sendOk : Bool}
    (h : c.step max (.ret code buff sendOk) = some c') :
    ∃ request, c.control = .invoking request ∧ buff.length < 2 ^ 64 ∧
      c' = c.ret request code buff sendOk := by
  unfold Conn.step at h
  dsimp only at h
  split at h
  · rename_i request hinvoking
    obtain ⟨hlen, h⟩ := Option.ite_none_right_eq_some.mp h
    exact ⟨request, hinvoking, hlen, (Option.some.inj h).symm⟩
  · cases h

theorem framed_init (max : ℕ) : Framed max Conn.init := by
  exact ⟨[], [], by simp, rfl, rfl, rfl, Nat.zero_lt_succ _⟩

theorem framed_recv {max : ℕ} {c : Conn} (h : Framed max c) (hidle : c.control = .idle) (chunk : Blob) :
    Framed max (c.recv max chunk) := by
  obtain ⟨raws, tail, hraws, hdecode, hrec, hunread⟩ := h
  unfold Conn.recv
  split_ifs
  · exact ⟨raws, tail, hraws, hdecode, hrec, trivial⟩
  · exact ⟨raws, tail, hraws, hdecode, hrec, trivial⟩
  · rw [Unread, hidle] at hunread
    refine ⟨raws, tail ++ chunk, hraws, hdecode, ?_, ?_⟩
    · show c.received ++ chunk = _
      rw [hrec, List.append_assoc]
    · have hbehind := hunread.1
      unfold Behind at hbehind
      show Behind max _ _
      unfold Behind
      dsimp only
      split at hbehind
      · rw [hbehind]
      · obtain ⟨raw, hlen, hread, htail, hrest⟩ := hbehind
        exact ⟨raw, hlen, hread, by rw [htail, List.append_assoc], hrest⟩

theorem framed_iterateHead {max : ℕ} {c : Conn} (h : Framed max c) (hloop : c.control = .loop)
    (hstate : c.m_state = .head) : Framed max (c.iterateHead max) := by
  obtain ⟨raws, tail, hraws, hdecode, hrec, hunread⟩ := h
  rw [Unread, hloop] at hunread
  have htail : tail = c.m_cache_in_buffer := by
    have hbehind : Behind max c tail := hunread
    rwa [Behind, hstate] at hbehind
  unfold Conn.iterateHead
  dsimp only
  split_ifs with hshort hsig hmismatch hlarge
  · exact ⟨raws, tail, hraws, hdecode, hrec, trivial⟩
  · refine ⟨raws, tail, hraws, hdecode, hrec, ?_, ?_⟩
    · show Behind max _ _
      rw [Behind, hstate]
      exact htail
    · rw [Paused, hstate]
      exact hshort
  · exact ⟨raws, tail, hraws, hdecode, hrec, trivial⟩
  · exact ⟨raws, tail, hraws, hdecode, hrec, trivial⟩
  · have hlen : (c.m_cache_in_buffer.take HEAD_SIZE).length = HEAD_SIZE :=
      List.length_take_of_le (not_lt.mp hshort)
    refine ⟨raws, tail, hraws, hdecode, hrec, ?_⟩
    rw [Unread]
    simp only [hloop]
    exact ⟨_, hlen, rfl, by rw [htail, List.take_append_drop], rfl, (not_not.mp hmismatch).symm,
      not_lt.mp hlarge⟩

/-- A packet is complete: it is cut off, and what becomes of it changes nothing that reading uses but
where the reading goes on. -/
theorem framed_take {max : ℕ} {c c' : Conn} (h : Framed max c) (hloop : c.control = .loop)
    (hstate : c.m_state = .body) (hfull : c.m_current_head.m_cb.toNat ≤ c.m_cache_in_buffer.length)
    (hcache : c'.m_cache_in_buffer = c.m_cache_in_buffer.drop c.m_current_head.m_cb.toNat)
    (htaken : c'.taken =
      c.taken ++ [⟨c.m_current_head, c.m_cache_in_buffer.take c.m_current_head.m_cb.toNat⟩])
    (hreceived : c'.received = c.received) (hhead : c'.m_current_head = c.m_current_head)
    (hnext : (∃ why, c'.control = .stopped why) ∨ (∃ p, c'.control = .invoking p) ∨
      c'.control = .loop ∧ c'.m_state = .head) : Framed max c' := by
  obtain ⟨raws, tail, hraws, hdecode, hrec, hunread⟩ := h
  rw [Unread, hloop] at hunread
  have hbehind : Behind max c tail := hunread
  rw [Behind, hstate] at hbehind
  obtain ⟨raw, hlen, hread, rfl, -, hsig, -⟩ := hbehind
  have hbody : (c.m_cache_in_buffer.take c.m_current_head.m_cb.toNat).length =
      c.m_current_head.m_cb.toNat := List.length_take_of_le hfull
  refine ⟨raws ++ [(raw, c.m_cache_in_buffer.take c.m_current_head.m_cb.toNat)], c'.m_cache_in_buffer,
    ?_, ?_, ?_, ?_⟩
  · intro p hp
    rcases List.mem_append.mp hp with hp | hp
    · exact hraws p hp
    · obtain rfl := List.mem_singleton.mp hp
      exact ⟨hlen, by rw [bodyLength, hread]; exact hbody⟩
  · rw [List.map_append, hdecode, htaken]
    simp [decode, hread]
  · rw [hreceived, hrec, hcache, List.flatMap_append, List.append_assoc]
    simp [bytes]
  · unfold Unread
    rcases hnext with ⟨why, hstop⟩ | ⟨p, hinvoking⟩ | ⟨hgo, hhead'⟩
    · rw [hstop]
      trivial
    · rw [hinvoking]
      exact ⟨rfl, hhead ▸ hsig⟩
    · rw [hgo]
      show Behind max c' _
      rw [Behind, hhead']

theorem framed_iterateBody {max : ℕ} {c : Conn} (h : Framed max c) (hloop : c.control = .loop)
    (hstate : c.m_state = .body) (outer : Bool) : Framed max (c.iterateBody outer) := by
  unfold Conn.iterateBody
  dsimp only
  split_ifs with hshort hresponse hinvoke
  · obtain ⟨raws, tail, hraws, hdecode, hrec, hunread⟩ := h
    rw [Unread, hloop] at hunread
    have hbehind : Behind max c tail := hunread
    refine ⟨raws, tail, hraws, hdecode, hrec, hbehind, ?_⟩
    rw [Paused, hstate]
    exact hshort
  all_goals have hfull := not_lt.mp hshort
  · unfold Conn.onResponse
    dsimp only
    split
    · split_ifs
      · exact framed_take h hloop hstate hfull rfl rfl rfl rfl (.inr (.inr ⟨hloop, rfl⟩))
      · exact framed_take h hloop hstate hfull rfl rfl rfl rfl (.inr (.inr ⟨hloop, rfl⟩))
    · split_ifs
      · exact framed_take h hloop hstate hfull rfl rfl rfl rfl (.inl ⟨_, rfl⟩)
      · exact framed_take h hloop hstate hfull rfl rfl rfl rfl (.inr (.inr ⟨hloop, rfl⟩))
  · exact framed_take h hloop hstate hfull rfl rfl rfl rfl (.inr (.inl ⟨_, rfl⟩))
  · exact framed_take h hloop hstate hfull rfl rfl rfl rfl (.inr (.inr ⟨hloop, rfl⟩))

theorem framed_ret {max : ℕ} {c : Conn} {request : Packet} (h : Framed max c)
    (hinvoking : c.control = .invoking request) (code : Int32) (buff : Blob) (sendOk : Bool) :
    Framed max (c.ret request code buff sendOk) := by
  obtain ⟨raws, tail, hraws, hdecode, hrec, hunread⟩ := h
  rw [Unread, hinvoking] at hunread
  unfold Conn.ret
  dsimp only
  split_ifs
  · exact ⟨raws, tail, hraws, hdecode, hrec, trivial⟩
  · exact ⟨raws, tail, hraws, hdecode, hrec, hunread.1⟩

theorem framed_step {max : ℕ} {c c' : Conn} {a : Act} (h : Framed max c) (hstep : c.step max a = some c') :
    Framed max c' := by
  cases a with
  | asyncInvoke command buff headOk refOk bodyOk =>
    obtain ⟨-, hstep⟩ := Option.ite_none_right_eq_some.mp hstep
    obtain rfl := Option.some.inj hstep
    exact h.of_input (input_asyncInvoke ..)
  | notify command buff headOk bodyOk =>
    obtain ⟨-, hstep⟩ := Option.ite_none_right_eq_some.mp hstep
    obtain rfl := Option.some.inj hstep
    exact h.of_input (input_notify ..)
  | recv chunk =>
    obtain ⟨hidle, hstep⟩ := Option.ite_none_right_eq_some.mp hstep
    obtain rfl := Option.some.inj hstep
    exact framed_recv h hidle chunk
  | iterate outer =>
    obtain ⟨hloop, hstep⟩ := Option.ite_none_right_eq_some.mp hstep
    obtain rfl := Option.some.inj hstep
    unfold Conn.iterate
    cases hstate : c.m_state with
    | head => exact framed_iterateHead h hloop hstate
    | body => exact framed_iterateBody h hloop hstate outer
  | ret code buff sendOk =>
    obtain ⟨request, hinvoking, -, rfl⟩ := ret_eq_some hstep
    exact framed_ret h hinvoking code buff sendOk
  | timeout i =>
    obtain ⟨a, -, -, rfl⟩ := timeout_eq_some hstep
    exact h.of_input rfl
  | close =>
    obtain rfl := Option.some.inj hstep
    exact h.of_input rfl
  | shutdown =>
    obtain rfl := Option.some.inj hstep
    exact h.of_input rfl

theorem run_invariant {max : ℕ} {P : Conn → Prop}
    (hstep : ∀ c a c', P c → c.step max a = some c' → P c') {c c' : Conn} {as : List Act} (h : P c)
    (hrun : c.run max as = some c') : P c' := by
  induction as generalizing c with
  | nil =>
    obtain rfl := Option.some.inj hrun
    exact h
  | cons a as ih =>
    obtain ⟨d, hd, hrun⟩ := Option.bind_eq_some_iff.mp hrun
    exact ih (hstep c a d h hd) hrun

theorem framed_of_run {max : ℕ} {c : Conn} {as : List Act} (h : Conn.init.run max as = some c) :
    Framed max c :=
  run_invariant (fun _ _ _ => framed_step) (framed_init max) h

/-- Two connections that have read the same bytes and wait for more have taken the same packets and
are in the same place, in whatever pieces the bytes came and whatever else happened. -/
theorem cut_independent {max max' : ℕ} {as as' : List Act} {c c' : Conn}
    (h : Conn.init.run max as = some c) (h' : Conn.init.run max' as' = some c') (hidle : c.control = .idle)
    (hidle' : c'.control = .idle) (hbytes : c.received = c'.received) :
    c.taken = c'.taken ∧ c.m_state = c'.m_state ∧ c.m_cache_in_buffer = c'.m_cache_in_buffer := by
  obtain ⟨raws, tail, hraws, hdecode, hrec, hunread⟩ := framed_of_run h
  obtain ⟨raws', tail', hraws', hdecode', hrec', hunread'⟩ := framed_of_run h'
  rw [Unread, hidle] at hunread
  rw [Unread, hidle'] at hunread'
  obtain ⟨hbehind, hpaused⟩ := hunread
  obtain ⟨hbehind', hpaused'⟩ := hunread'
  obtain ⟨rfl, rfl⟩ := frames_unique hraws hraws' (hbehind.short hpaused) (hbehind'.short hpaused')
    (hrec.symm.trans (hbytes.trans hrec'))
  refine ⟨hdecode.symm.trans hdecode', ?_⟩
  unfold Behind at hbehind hbehind'
  unfold Paused at hpaused hpaused'
  cases hstate : c.m_state <;> cases hstate' : c'.m_state <;> rw [hstate] at hbehind hpaused <;>
    rw [hstate'] at hbehind' hpaused'
  · exact ⟨rfl, hbehind.symm.trans hbehind'⟩
  · -- the head of the one would not be whole yet
    obtain ⟨raw, hlen, -, htail, -⟩ := hbehind'
    have hle := congrArg List.length (hbehind.symm.trans htail)
    rw [List.length_append] at hle
    dsimp only at hpaused
    omega
  · obtain ⟨raw, hlen, -, htail, -⟩ := hbehind
    have hle := congrArg List.length (hbehind'.symm.trans htail)
    rw [List.length_append] at hle
    dsimp only at hpaused'
    omega
  · obtain ⟨raw, hlen, -, htail, -⟩ := hbehind
    obtain ⟨raw', hlen', -, htail', -⟩ := hbehind'
    exact ⟨rfl, (List.append_inj (htail.symm.trans htail') (hlen.trans hlen'.symm)).2⟩

/-- A notification and a request. -/
def sampleStream : Blob :=
  Packet.bytes ⟨requestHead 2001 [1, 2, 3] false, [1, 2, 3]⟩ ++ Packet.bytes ⟨requestHead 1001 [4] true, [4]⟩

def sampleWhole : List Act :=
  [.recv sampleStream, .iterate false, .iterate false, .iterate false, .iterate false, .ret 1 [5] true,
    .iterate false]

/-- The same bytes in three pieces, with a call that runs out of time. -/
def samplePieces : List Act :=
  [.asyncInvoke 1002 [] true true true, .recv (sampleStream.take 20), .iterate false,
    .recv ((sampleStream.drop 20).take 15), .iterate false, .iterate false, .recv (sampleStream.drop 35),
    .iterate false, .iterate false, .iterate false, .ret 0 [] true, .timeout 0, .iterate false]

theorem sampleWhole_runs : (Conn.init.run 100 sampleWhole).isSome := by decide

theorem samplePieces_runs : (Conn.init.run 50 samplePieces).isSome := by decide

theorem cut_independent_sample :
    ((Conn.init.run 100 sampleWhole).get sampleWhole_runs).taken.length = 2 ∧
      ((Conn.init.run 100 sampleWhole).get sampleWhole_runs).taken =
        ((Conn.init.run 50 samplePieces).get samplePieces_runs).taken :=
  ⟨by decide, (cut_independent (Option.some_get sampleWhole_runs).symm
    (Option.some_get samplePieces_runs).symm (by decide) (by decide) (by decide)).1⟩

/-- The handlers whose callback is still to be called. -/
def live (hs : List InvokeHandler) : List ℕ :=
  (hs.filter fun h => h.m_timer = .running).map InvokeHandler.m_cb

def Conn.callbacks (c : Conn) :
    List (ℕ × Int32 × Blob) × List (ℕ × Int32) × List InvokeHandler × ℕ × List ℕ :=
  (c.answered, c.failed, c.m_invoke_response_handlers, c.calls, c.doubled)

/-- No handler is left behind, and no call is reported three times. -/
structure Tidy (c : Conn) : Prop where
  handlers : c.m_was_shutdown = true → c.m_invoke_response_handlers = []
  doubled : c.doubled.Sublist (List.range c.calls)

theorem Tidy.of_eq {c c' : Conn} (h : Tidy c) (hdown : c'.m_was_shutdown = c.m_was_shutdown)
    (hcallbacks : c'.callbacks = c.callbacks) : Tidy c' := by
  simp only [Conn.callbacks, Prod.mk.injEq] at hcallbacks
  obtain ⟨-, -, hhandlers, hcalls, hdoubled⟩ := hcallbacks
  exact ⟨by rw [hdown, hhandlers]; exact h.handlers, by rw [hdoubled, hcalls]; exact h.doubled⟩

theorem tidy_asyncInvoke {c : Conn} (h : Tidy c) (command : UInt32) (buff : Blob)
    (headOk refOk bodyOk : Bool) : Tidy (c.asyncInvoke command buff headOk refOk bodyOk) := by
  have hrange : (List.range (c.calls + 1)) = List.range c.calls ++ [c.calls] := List.range_succ
  have hsub : c.doubled.Sublist (List.range (c.calls + 1)) :=
    h.doubled.trans (hrange ▸ List.sublist_append_left _ _)
  unfold Conn.asyncInvoke
  by_cases hhead : c.m_was_shutdown ∨ headOk = false
  · rw [if_pos hhead]
    exact ⟨h.handlers, hsub⟩
  · rw [if_neg hhead]
    cases refOk
    · exact ⟨fun hdown => absurd (.inl hdown) hhead, hsub⟩
    · cases bodyOk
      · refine ⟨fun hdown => absurd (.inl hdown) hhead, ?_⟩
        show (c.doubled ++ [c.calls]).Sublist (List.range (c.calls + 1))
        rw [hrange]
        exact h.doubled.append (List.Sublist.refl _)
      · exact ⟨fun hdown => absurd (.inl hdown) hhead, hsub⟩

theorem tidy_iterateBody {c : Conn} (h : Tidy c) (outer : Bool) : Tidy (c.iterateBody outer) := by
  unfold Conn.iterateBody
  dsimp only
  split_ifs
  · exact h.of_eq rfl rfl
  · unfold Conn.onResponse
    dsimp only
    split
    · rename_i a hs heq
      split_ifs
      · exact ⟨fun hdown => absurd (heq.symm.trans (h.handlers hdown)) (List.cons_ne_nil _ _), h.doubled⟩
      · exact h.of_eq rfl rfl
    · split_ifs
      · exact h.of_eq rfl rfl
      · exact h.of_eq rfl rfl
  · exact h.of_eq rfl rfl
  · exact h.of_eq rfl rfl

theorem tidy_step {max : ℕ} {c c' : Conn} {a : Act} (h : Tidy c) (hstep : c.step max a = some c') :
    Tidy c' := by
  cases a with
  | asyncInvoke command buff headOk refOk bodyOk =>
    obtain ⟨-, hstep⟩ := Option.ite_none_right_eq_some.mp hstep
    obtain rfl := Option.some.inj hstep
    exact tidy_asyncInvoke h command buff headOk refOk bodyOk
  | notify command buff headOk bodyOk =>
    obtain ⟨-, hstep⟩ := Option.ite_none_right_eq_some.mp hstep
    obtain rfl := Option.some.inj hstep
    unfold Conn.notify
    dsimp only
    split_ifs <;> exact h.of_eq rfl rfl
  | recv chunk =>
    obtain ⟨-, hstep⟩ := Option.ite_none_right_eq_some.mp hstep
    obtain rfl := Option.some.inj hstep
    unfold Conn.recv
    split_ifs <;> exact h.of_eq rfl rfl
  | iterate outer =>
    obtain ⟨-, hstep⟩ := Option.ite_none_right_eq_some.mp hstep
    obtain rfl := Option.some.inj hstep
    unfold Conn.iterate
    split
    · exact tidy_iterateBody h outer
    · unfold Conn.iterateHead
      dsimp only
      split_ifs <;> exact h.of_eq rfl rfl
  | ret code buff sendOk =>
    obtain ⟨request, -, -, rfl⟩ := ret_eq_some hstep
    unfold Conn.ret
    dsimp only
    split_ifs <;> exact h.of_eq rfl rfl
  | timeout i =>
    obtain ⟨a, ha, -, rfl⟩ := timeout_eq_some hstep
    refine ⟨fun hdown => ?_, h.doubled⟩
    rw [h.handlers hdown] at ha
    cases ha
  | close =>
    obtain rfl := Option.some.inj hstep
    exact h.of_eq rfl rfl
  | shutdown =>
    obtain rfl := Option.some.inj hstep
    exact ⟨fun _ => rfl, h.doubled⟩

/-- Of five calls one is answered, one runs out of time, one is not sent whole, one is left at `shutdown`
and one comes after it. -/
def sampleCalls : List Act :=
  [.asyncInvoke 1001 [1] true true true, .asyncInvoke 1001 [2] true true true,
    .recv (Packet.bytes ⟨responseHead (requestHead 1001 [1] true) 7 [9], [9]⟩), .iterate false,
    .iterate false, .iterate false, .asyncInvoke 1002 [3] true true false, .timeout 0,
    .asyncInvoke 1003 [] true true true, .shutdown, .asyncInvoke 1001 [4] true true true]

end Levin
end Boolberry
