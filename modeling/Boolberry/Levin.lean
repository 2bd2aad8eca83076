import Boolberry.ArchiveRoundTrip

/-!
# Levin connections

`async_protocol_handler` of epee: packets on a byte stream, requests that are answered in their order and
callbacks with timers. One action is what happens without another thread in between: a piece of the
stream arrives, the loop of `handle_recv` goes round once, a commands handler returns, a packet is sent.
The calls of `invoke`, which wait for their response, are left out.
-/

namespace Boolberry
namespace Levin

def LEVIN_SIGNATURE : UInt64 := 0x0101010101012101
def LEVIN_PACKET_REQUEST : UInt32 := 1
def LEVIN_PACKET_RESPONSE : UInt32 := 2
def LEVIN_PROTOCOL_VER_1 : UInt32 := 1
def LEVIN_ERROR_CONNECTION : Int32 := -1
def LEVIN_ERROR_CONNECTION_DESTROYED : Int32 := -3
def LEVIN_ERROR_CONNECTION_TIMEDOUT : Int32 := -4

/-- `bucket_head2`, without padding. -/
structure Head where
  m_signature : UInt64
  m_cb : UInt64
  m_have_to_return_data : Bool
  m_command : UInt32
  m_return_code : Int32
  m_flags : UInt32
  m_protocol_version : UInt32
  deriving DecidableEq, Inhabited

/-- `sizeof(bucket_head2)` -/
def HEAD_SIZE : ℕ := 33

def Head.bytes (h : Head) : Blob :=
  podBytes 8 h.m_signature.toNat ++ (podBytes 8 h.m_cb.toNat ++
    ((if h.m_have_to_return_data then 1 else 0) :: (podBytes 4 h.m_command.toNat ++
      (podBytes 4 h.m_return_code.toUInt32.toNat ++ (podBytes 4 h.m_flags.toNat ++
        podBytes 4 h.m_protocol_version.toNat)))))

/-- The head whose bytes these are. -/
def readHead (raw : Blob) : Head where
  m_signature := UInt64.ofNat (podValue (raw.take 8))
  m_cb := UInt64.ofNat (podValue ((raw.drop 8).take 8))
  m_have_to_return_data := decide ((raw.drop 16).headD 0 ≠ 0)
  m_command := UInt32.ofNat (podValue ((raw.drop 17).take 4))
  m_return_code := (UInt32.ofNat (podValue ((raw.drop 21).take 4))).toInt32
  m_flags := UInt32.ofNat (podValue ((raw.drop 25).take 4))
  m_protocol_version := UInt32.ofNat (podValue ((raw.drop 29).take 4))

structure Packet where
  head : Head
  body : Blob
  deriving DecidableEq, Inhabited

def Packet.bytes (p : Packet) : Blob := p.head.bytes ++ p.body

def Packet.isResponse (p : Packet) : Bool :=
  p.head.m_protocol_version = LEVIN_PROTOCOL_VER_1 ∧ p.head.m_flags &&& LEVIN_PACKET_RESPONSE ≠ 0

/-- A request whose handler's data are sent back. -/
def Packet.isInvoke (p : Packet) : Bool := !p.isResponse && p.head.m_have_to_return_data

inductive StreamState
  | head | body
  deriving DecidableEq

/-- `m_timer` of a handler: `none` where `start_outer_call` failed. -/
inductive Timer
  | none | running | expired
  deriving DecidableEq

/-- `invoke_handler`, its callback known by number. -/
structure InvokeHandler where
  m_cb : ℕ
  m_timer : Timer
  deriving DecidableEq

/-- Why `handle_recv` returned false, after which nothing more is read. -/
inductive Refusal
  | closing | tooLarge | signature | headTooLarge | noActiveInvoke | notSent
  deriving DecidableEq

/-- Where the reading thread is. -/
inductive Control
  | idle | loop | invoking (request : Packet) | stopped (why : Refusal)
  deriving DecidableEq

structure Conn where
  m_cache_in_buffer : Blob
  m_state : StreamState
  m_current_head : Head
  m_oponent_protocol_ver : UInt32
  m_invoke_response_handlers : List InvokeHandler
  m_close_called : Bool
  m_was_shutdown : Bool
  control : Control
  /-- The bytes read and those given to the socket. -/
  received : Blob
  sent : Blob
  /-- The packets that were cut off the stream, and those of which the head was sent. -/
  taken : List Packet
  posted : List Packet
  /-- Whether a head was sent without its body. -/
  torn : Bool
  /-- How often `async_invoke` was called, and the calls whose head was sent with their packets. -/
  calls : ℕ
  asked : List (ℕ × Packet)
  /-- The requests answered, with what their handlers returned. -/
  returned : List (Packet × Int32 × Blob)
  /-- The calls of callbacks, with a response and with an error. -/
  answered : List (ℕ × Int32 × Blob)
  failed : List (ℕ × Int32)
  /-- The calls whose error was reported with the timer still running. -/
  doubled : List ℕ
  deriving DecidableEq

def Conn.init : Conn where
  m_cache_in_buffer := []
  m_state := .head
  m_current_head := default
  m_oponent_protocol_ver := 0
  m_invoke_response_handlers := []
  m_close_called := false
  m_was_shutdown := false
  control := .idle
  received := []
  sent := []
  taken := []
  posted := []
  torn := false
  calls := 0
  asked := []
  returned := []
  answered := []
  failed := []
  doubled := []

/-- What `async_invoke` and `notify` put in front of a body. -/
def requestHead (command : UInt32) (buff : Blob) (have_to_return_data : Bool) : Head where
  m_signature := LEVIN_SIGNATURE
  m_cb := UInt64.ofNat buff.length
  m_have_to_return_data := have_to_return_data
  m_command := command
  m_return_code := 0
  m_flags := LEVIN_PACKET_REQUEST
  m_protocol_version := LEVIN_PROTOCOL_VER_1

/-- What is put in front of the data a handler returned: the head of the request with other values. -/
def responseHead (h : Head) (code : Int32) (buff : Blob) : Head :=
  { h with
    m_return_code := code
    m_cb := UInt64.ofNat buff.length
    m_have_to_return_data := false
    m_protocol_version := LEVIN_PROTOCOL_VER_1
    m_flags := LEVIN_PACKET_RESPONSE }

namespace Conn

/-- `async_invoke`, with what `do_send`, `add_ref` and `do_send` return. A body that was not sent leaves
its handler in the list although its callback was called. -/
def asyncInvoke (c : Conn) (command : UInt32) (buff : Blob) (headOk refOk bodyOk : Bool) : Conn :=
  let id := c.calls
  let head := requestHead command buff true
  if c.m_was_shutdown ∨ headOk = false then
    { c with calls := id + 1, failed := c.failed ++ [(id, LEVIN_ERROR_CONNECTION)] }
  else
    let c : Conn :=
      { c with
        calls := id + 1
        asked := c.asked ++ [(id, ⟨head, buff⟩)]
        posted := c.posted ++ [⟨head, buff⟩]
        m_invoke_response_handlers :=
          c.m_invoke_response_handlers ++ [⟨id, if refOk then .running else .none⟩] }
    if refOk = false then
      { c with
        sent := c.sent ++ head.bytes
        torn := true
        failed := c.failed ++ [(id, LEVIN_ERROR_CONNECTION_DESTROYED)] }
    else if bodyOk = false then
      { c with
        sent := c.sent ++ head.bytes
        torn := true
        failed := c.failed ++ [(id, LEVIN_ERROR_CONNECTION)]
        doubled := c.doubled ++ [id] }
    else { c with sent := c.sent ++ head.bytes ++ buff }

def notify (c : Conn) (command : UInt32) (buff : Blob) (headOk bodyOk : Bool) : Conn :=
  let head := requestHead command buff false
  if c.m_was_shutdown ∨ headOk = false then c
  else if bodyOk = false then
    { c with posted := c.posted ++ [⟨head, buff⟩], sent := c.sent ++ head.bytes, torn := true }
  else { c with posted := c.posted ++ [⟨head, buff⟩], sent := c.sent ++ head.bytes ++ buff }

/-- `handle_recv` up to its loop. -/
def recv (max : ℕ) (c : Conn) (chunk : Blob) : Conn :=
  if c.m_close_called then { c with control := .stopped .closing }
  else if max < c.m_cache_in_buffer.length + chunk.length then { c with control := .stopped .tooLarge }
  else
    { c with
      m_cache_in_buffer := c.m_cache_in_buffer ++ chunk
      received := c.received ++ chunk
      control := .loop }

/-- A response goes to the first handler, if its timer can be cancelled. With no handler in the list it is
one to an `invoke` that waits, if any call from outside is active. -/
def onResponse (c : Conn) (buff : Blob) (outer : Bool) : Conn :=
  match c.m_invoke_response_handlers with
  | h :: hs =>
      if h.m_timer = .running then
        { c with
          m_invoke_response_handlers := hs
          answered := c.answered ++ [(h.m_cb, c.m_current_head.m_return_code, buff)]
          m_state := .head }
      else { c with m_state := .head }
  | [] =>
      if outer = false ∧ c.m_close_called = false then { c with control := .stopped .noActiveInvoke }
      else { c with m_state := .head }

/-- `case stream_state_body` -/
def iterateBody (c : Conn) (outer : Bool) : Conn :=
  let m_cb := c.m_current_head.m_cb.toNat
  if c.m_cache_in_buffer.length < m_cb then { c with control := .idle }
  else
    let buff := c.m_cache_in_buffer.take m_cb
    let p : Packet := ⟨c.m_current_head, buff⟩
    let c : Conn := { c with m_cache_in_buffer := c.m_cache_in_buffer.drop m_cb, taken := c.taken ++ [p] }
    if c.m_oponent_protocol_ver = LEVIN_PROTOCOL_VER_1 ∧
        c.m_current_head.m_flags &&& LEVIN_PACKET_RESPONSE ≠ 0 then c.onResponse buff outer
    else if c.m_current_head.m_have_to_return_data then { c with control := .invoking p }
    else { c with m_state := .head }

/-- `case stream_state_head` -/
def iterateHead (max : ℕ) (c : Conn) : Conn :=
  if c.m_cache_in_buffer.length < HEAD_SIZE then
    if 8 ≤ c.m_cache_in_buffer.length ∧
        UInt64.ofNat (podValue (c.m_cache_in_buffer.take 8)) ≠ LEVIN_SIGNATURE then
      { c with control := .stopped .signature }
    else { c with control := .idle }
  else
    let phead := readHead (c.m_cache_in_buffer.take HEAD_SIZE)
    if LEVIN_SIGNATURE ≠ phead.m_signature then { c with control := .stopped .signature }
    else
      let c : Conn :=
        { c with
          m_current_head := phead
          m_cache_in_buffer := c.m_cache_in_buffer.drop HEAD_SIZE
          m_state := .body
          m_oponent_protocol_ver := phead.m_protocol_version }
      if max < phead.m_cb.toNat then { c with control := .stopped .headTooLarge } else c

/-- One round of the loop of `handle_recv`, up to the call of a commands handler. -/
def iterate (max : ℕ) (c : Conn) (outer : Bool) : Conn :=
  match c.m_state with
  | .body => c.iterateBody outer
  | .head => c.iterateHead max

/-- The commands handler returned this, and it is sent back. -/
def ret (c : Conn) (request : Packet) (code : Int32) (buff : Blob) (sendOk : Bool) : Conn :=
  let head := responseHead c.m_current_head code buff
  let c : Conn := { c with m_current_head := head }
  if c.m_was_shutdown ∨ sendOk = false then { c with control := .stopped .notSent }
  else
    { c with
      returned := c.returned ++ [(request, code, buff)]
      posted := c.posted ++ [⟨head, buff⟩]
      sent := c.sent ++ head.bytes ++ buff
      m_state := .head
      control := .loop }

/-- The timer of this handler expires: its callback is called and the connection closes. -/
def timeout (c : Conn) (i : ℕ) : Option Conn :=
  match c.m_invoke_response_handlers[i]? with
  | some h =>
      if h.m_timer = .running then
        some
          { c with
            m_invoke_response_handlers := c.m_invoke_response_handlers.set i { h with m_timer := .expired }
            failed := c.failed ++ [(h.m_cb, LEVIN_ERROR_CONNECTION_TIMEDOUT)]
            m_close_called := true }
      else none
  | none => none

/-- `release_protocol`, which the socket's `shutdown` calls. -/
def shutdown (c : Conn) : Conn :=
  { c with
    m_was_shutdown := true
    m_invoke_response_handlers := []
    failed := c.failed ++ ((c.m_invoke_response_handlers.filter fun h => h.m_timer = .running).map
      fun h => (h.m_cb, LEVIN_ERROR_CONNECTION_DESTROYED)) }

end Conn

inductive Act
  | asyncInvoke (command : UInt32) (buff : Blob) (headOk refOk bodyOk : Bool)
  | notify (command : UInt32) (buff : Blob) (headOk bodyOk : Bool)
  | recv (chunk : Blob)
  | iterate (outer : Bool)
  | ret (code : Int32) (buff : Blob) (sendOk : Bool)
  | timeout (i : ℕ)
  | close
  | shutdown
  deriving DecidableEq

/-- One action, if it can happen now. A size that does not fit the `int` it is cast to is left out. -/
def Conn.step (max : ℕ) (c : Conn) : Act → Option Conn
  | .asyncInvoke command buff headOk refOk bodyOk =>
      if buff.length < 2 ^ 31 then some (c.asyncInvoke command buff headOk refOk bodyOk) else none
  | .notify command buff headOk bodyOk =>
      if buff.length < 2 ^ 31 then some (c.notify command buff headOk bodyOk) else none
  | .recv chunk => if c.control = .idle then some (c.recv max chunk) else none
  | .iterate outer => if c.control = .loop then some (c.iterate max outer) else none
  | .ret code buff sendOk =>
      match c.control with
      | .invoking request => if buff.length < 2 ^ 64 then some (c.ret request code buff sendOk) else none
      | _ => none
  | .timeout i => c.timeout i
  | .close => some { c with m_close_called := true }
  | .shutdown => some c.shutdown

def Conn.run (max : ℕ) : Conn → List Act → Option Conn
  | c, [] => some c
  | c, a :: as => (c.step max a).bind fun c' => Conn.run max c' as

end Levin
end Boolberry
