import Boolberry.LevinRuns

/-!
# The two ends of a levin connection

Each side reads what the other one sent. While neither has sent a head without its body, the packets
arrive as they were posted, and each response goes to the callback of its request.
-/

namespace Boolberry
namespace Levin

open Framing

/-- What happens at one of the two sides; a piece of the stream is told by its length. -/
inductive LinkAct
  | at (act : Act)
  | deliver (k : ℕ)

/-- The two ends of a connection. -/
abbrev Link := Bool → Conn

def Link.init : Link := fun _ => Conn.init

/-- The sockets bring what was sent in order; they may stop at any place. -/
def Link.step (max : Bool → ℕ) (l : Link) (side : Bool) : LinkAct → Option Link
  | .at (.recv _) => none
  | .at act => ((l side).step (max side) act).map fun c => Function.update l side c
  | .deliver k =>
      ((l side).step (max side) (.recv (((l !side).sent.drop (l side).received.length).take k))).map
        fun c => Function.update l side c

def Link.run (max : Bool → ℕ) : Link → List (Bool × LinkAct) → Option Link
  | l, [] => some l
  | l, (side, act) :: acts => (l.step max side act).bind fun l' => Link.run max l' acts

def Packet.value (p : Packet) : Int32 × Blob := (p.head.m_return_code, p.body)

def responses (ps : List Packet) : List (Int32 × Blob) := (ps.filter Packet.isResponse).map Packet.value

def requests (ps : List Packet) : List Packet := ps.filter Packet.isInvoke

@[simp] theorem responses_append (ps qs : List Packet) :
    responses (ps ++ qs) = responses ps ++ responses qs := by
  rw [responses, List.filter_append, List.map_append]
  rfl

@[simp] theorem requests_append (ps qs : List Packet) :
    requests (ps ++ qs) = requests ps ++ requests qs :=
  List.filter_append ..

theorem responses_mono {ps qs : List Packet} (h : ps <+: qs) : responses ps <+: responses qs := by
  obtain ⟨r, rfl⟩ := h
  exact ⟨responses r, (responses_append ps r).symm⟩

theorem requests_mono {ps qs : List Packet} (h : ps <+: qs) : requests ps <+: requests qs := by
  obtain ⟨r, rfl⟩ := h
  exact ⟨requests r, (requests_append ps r).symm⟩

theorem responses_request (command : UInt32) (buff : Blob) (back : Bool) :
    responses [⟨requestHead command buff back, buff⟩] = [] := by
  have : (1 : UInt32) &&& 2 = 0 := by decide
  simp [responses, Packet.isResponse, requestHead, LEVIN_PACKET_REQUEST, LEVIN_PACKET_RESPONSE, this]

theorem requests_invoke (command : UInt32) (buff : Blob) :
    requests [⟨requestHead command buff true, buff⟩] = [⟨requestHead command buff true, buff⟩] := by
  have : (1 : UInt32) &&& 2 = 0 := by decide
  simp [requests, Packet.isInvoke, Packet.isResponse, requestHead, LEVIN_PACKET_REQUEST,
    LEVIN_PACKET_RESPONSE, this]

theorem requests_notify (command : UInt32) (buff : Blob) :
    requests [⟨requestHead command buff false, buff⟩] = [] := by
  simp [requests, Packet.isInvoke, requestHead]

theorem requests_response (h : Head) (code : Int32) (buff : Blob) :
    requests [⟨responseHead h code buff, buff⟩] = [] := by
  simp [requests, Packet.isInvoke, responseHead]

theorem responses_response (h : Head) (code : Int32) (buff : Blob) :
    responses [⟨responseHead h code buff, buff⟩] = [(code, buff)] := by
  simp [responses, Packet.isResponse, Packet.value, responseHead, LEVIN_PACKET_RESPONSE]

/-- The part of a connection that sending changes. -/
def Conn.output (c : Conn) :
    Blob × List Packet × Bool × List (ℕ × Packet) × List (Packet × Int32 × Blob) :=
  (c.sent, c.posted, c.torn, c.asked, c.returned)

/-- A packet was sent, or its head alone. -/
structure Posts (c c' : Conn) (p : Packet) : Prop where
  body : p.body.length = p.head.m_cb.toNat
  posted : c'.posted = c.posted ++ [p]
  sent : c'.torn = true ∧ c'.sent = c.sent ++ p.head.bytes ∨ c'.torn = c.torn ∧ c'.sent = c.sent ++ p.bytes
  asked : c'.asked.map Prod.snd = c.asked.map Prod.snd ++ requests [p]
  returned : c'.returned.map Prod.snd = c.returned.map Prod.snd ++ responses [p]

theorem toNat_m_cb {n : ℕ} (h : n < 2 ^ 64) : (UInt64.ofNat n).toNat = n := by
  rw [UInt64.toNat_ofNat', Nat.mod_eq_of_lt h]

theorem output_asyncInvoke (c : Conn) (command : UInt32) {buff : Blob} (hlen : buff.length < 2 ^ 31)
    (headOk refOk bodyOk : Bool) :
    (c.asyncInvoke command buff headOk refOk bodyOk).output = c.output ∨
      Posts c (c.asyncInvoke command buff headOk refOk bodyOk) ⟨requestHead command buff true, buff⟩ := by
  have hbody : buff.length = (requestHead command buff true).m_cb.toNat :=
    (toNat_m_cb (by omega)).symm
  have hasked (id : ℕ) :
      (c.asked ++ [(id, (⟨requestHead command buff true, buff⟩ : Packet))]).map Prod.snd =
      c.asked.map Prod.snd ++ requests [⟨requestHead command buff true, buff⟩] := by
    rw [requests_invoke, List.map_append]
    rfl
  have hreturned : c.returned.map Prod.snd =
      c.returned.map Prod.snd ++ responses [⟨requestHead command buff true, buff⟩] := by
    rw [responses_request, List.append_nil]
  unfold Conn.asyncInvoke
  by_cases hhead : c.m_was_shutdown ∨ headOk = false
  · rw [if_pos hhead]
    exact .inl rfl
  · rw [if_neg hhead]
    right
    cases refOk
    · exact ⟨hbody, rfl, .inl ⟨rfl, rfl⟩, hasked _, hreturned⟩
    · cases bodyOk
      · exact ⟨hbody, rfl, .inl ⟨rfl, rfl⟩, hasked _, hreturned⟩
      · exact ⟨hbody, rfl, .inr ⟨rfl, List.append_assoc ..⟩, hasked _, hreturned⟩

theorem output_notify (c : Conn) (command : UInt32) {buff : Blob} (hlen : buff.length < 2 ^ 31)
    (headOk bodyOk : Bool) :
    (c.notify command buff headOk bodyOk).output = c.output ∨
      Posts c (c.notify command buff headOk bodyOk) ⟨requestHead command buff false, buff⟩ := by
  have hbody : buff.length = (requestHead command buff false).m_cb.toNat :=
    (toNat_m_cb (by omega)).symm
  have hasked : c.asked.map Prod.snd =
      c.asked.map Prod.snd ++ requests [⟨requestHead command buff false, buff⟩] := by
    rw [requests_notify, List.append_nil]
  have hreturned : c.returned.map Prod.snd =
      c.returned.map Prod.snd ++ responses [⟨requestHead command buff false, buff⟩] := by
    rw [responses_request, List.append_nil]
  unfold Conn.notify
  dsimp only
  split_ifs
  · exact .inl rfl
  · exact .inr ⟨hbody, rfl, .inl ⟨rfl, rfl⟩, hasked, hreturned⟩
  · exact .inr ⟨hbody, rfl, .inr ⟨rfl, List.append_assoc ..⟩, hasked, hreturned⟩

theorem output_ret (c : Conn) (request : Packet) (code : Int32) {buff : Blob} (hlen : buff.length < 2 ^ 64)
    (sendOk : Bool) :
    (c.ret request code buff sendOk).output = c.output ∨
      Posts c (c.ret request code buff sendOk) ⟨responseHead c.m_current_head code buff, buff⟩ := by
  unfold Conn.ret
  dsimp only
  split_ifs
  · exact .inl rfl
  · refine .inr ⟨(toNat_m_cb hlen).symm, rfl, .inr ⟨rfl, List.append_assoc ..⟩, ?_, ?_⟩
    · rw [requests_response, List.append_nil]
    · rw [responses_response, List.map_append]
      rfl

theorem output_onResponse (c : Conn) (buff : Blob) (outer : Bool) :
    (c.onResponse buff outer).output = c.output := by
  unfold Conn.onResponse
  split
  · split_ifs <;> rfl
  · split_ifs <;> rfl

theorem output_iterate (max : ℕ) (c : Conn) (outer : Bool) : (c.iterate max outer).output = c.output := by
  unfold Conn.iterate
  split
  · unfold Conn.iterateBody
    dsimp only
    split_ifs
    · rfl
    · exact output_onResponse _ _ _
    · rfl
    · rfl
  · unfold Conn.iterateHead
    dsimp only
    split_ifs <;> rfl

theorem output_step {max : ℕ} {c c' : Conn} {a : Act} (hstep : c.step max a = some c') :
    c'.output = c.output ∨ ∃ p, Posts c c' p := by
  cases a with
  | asyncInvoke command buff headOk refOk bodyOk =>
    obtain ⟨hlen, hstep⟩ := Option.ite_none_right_eq_some.mp hstep
    obtain rfl := Option.some.inj hstep
    exact (output_asyncInvoke c command hlen headOk refOk bodyOk).imp_right fun h => ⟨_, h⟩
  | notify command buff headOk bodyOk =>
    obtain ⟨hlen, hstep⟩ := Option.ite_none_right_eq_some.mp hstep
    obtain rfl := Option.some.inj hstep
    exact (output_notify c command hlen headOk bodyOk).imp_right fun h => ⟨_, h⟩
  | recv chunk =>
    obtain ⟨-, hstep⟩ := Option.ite_none_right_eq_some.mp hstep
    obtain rfl := Option.some.inj hstep
    left
    unfold Conn.recv
    split_ifs <;> rfl
  | iterate outer =>
    obtain ⟨-, hstep⟩ := Option.ite_none_right_eq_some.mp hstep
    obtain rfl := Option.some.inj hstep
    exact .inl (output_iterate max c outer)
  | ret code buff sendOk =>
    obtain ⟨request, -, hlen, rfl⟩ := ret_eq_some hstep
    exact (output_ret c request code hlen sendOk).imp_right fun h => ⟨_, h⟩
  | timeout i =>
    obtain ⟨a, -, -, rfl⟩ := timeout_eq_some hstep
    exact .inl rfl
  | close =>
    obtain rfl := Option.some.inj hstep
    exact .inl rfl
  | shutdown =>
    obtain rfl := Option.some.inj hstep
    exact .inl rfl

theorem sent_step {max : ℕ} {c c' : Conn} {a : Act} (hstep : c.step max a = some c') :
    c.sent <+: c'.sent ∧ (c'.torn = false → c.torn = false) := by
  rcases output_step hstep with h | ⟨p, h⟩
  · simp only [Conn.output, Prod.mk.injEq] at h
    obtain ⟨hsent, -, htorn, -⟩ := h
    rw [hsent, htorn]
    exact ⟨List.prefix_refl _, id⟩
  · rcases h.sent with ⟨htorn, hsent⟩ | ⟨htorn, hsent⟩
    · rw [hsent, htorn]
      exact ⟨List.prefix_append _ _, Bool.noConfusion⟩
    · rw [hsent, htorn]
      exact ⟨List.prefix_append _ _, id⟩

/-- The stream is the packets, which carry the requests asked and the values returned in order. -/
structure Outgoing (c : Conn) : Prop where
  sent : c.torn = false → c.sent = c.posted.flatMap Packet.bytes
  body : ∀ p ∈ c.posted, p.body.length = p.head.m_cb.toNat
  asked : requests c.posted = c.asked.map Prod.snd
  returned : responses c.posted = c.returned.map Prod.snd

theorem outgoing_init : Outgoing Conn.init :=
  ⟨fun _ => rfl, fun _ hp => absurd hp List.not_mem_nil, rfl, rfl⟩

theorem Outgoing.posts {c c' : Conn} {p : Packet} (h : Outgoing c) (hp : Posts c c' p) : Outgoing c' where
  sent := by
    intro huntorn
    rcases hp.sent with ⟨htorn, -⟩ | ⟨htorn, hsent⟩
    · rw [htorn] at huntorn
      cases huntorn
    · rw [hsent, hp.posted, h.sent (htorn.symm.trans huntorn), List.flatMap_append, List.flatMap_singleton]
  body := by
    intro q hq
    rw [hp.posted] at hq
    rcases List.mem_append.mp hq with hq | hq
    · exact h.body q hq
    · obtain rfl := List.mem_singleton.mp hq
      exact hp.body
  asked := by rw [hp.posted, requests_append, h.asked, hp.asked]
  returned := by rw [hp.posted, responses_append, h.returned, hp.returned]

theorem outgoing_step {max : ℕ} {c c' : Conn} {a : Act} (h : Outgoing c) (hstep : c.step max a = some c') :
    Outgoing c' := by
  rcases output_step hstep with heq | ⟨p, hp⟩
  · simp only [Conn.output, Prod.mk.injEq] at heq
    obtain ⟨hsent, hposted, htorn, hasked, hreturned⟩ := heq
    exact ⟨by rw [htorn, hsent, hposted]; exact h.sent, by rw [hposted]; exact h.body,
      by rw [hposted, hasked]; exact h.asked, by rw [hposted, hreturned]; exact h.returned⟩
  · exact h.posts hp

/-- The requests taken are answered in order, one at a time. -/
def Handled (c : Conn) : Prop :=
  match c.control with
  | .invoking request => c.returned.map Prod.fst ++ [request] = requests c.taken
  | .stopped _ => c.returned.map Prod.fst <+: requests c.taken
  | _ => c.returned.map Prod.fst = requests c.taken

theorem Handled.inOrder {c : Conn} (h : Handled c) : c.returned.map Prod.fst <+: requests c.taken := by
  unfold Handled at h
  split at h
  · exact h ▸ List.prefix_append _ _
  · exact h
  · exact h ▸ List.prefix_refl _

theorem Handled.of_eq {c c' : Conn} (h : Handled c) (hcontrol : c'.control = c.control)
    (htaken : c'.taken = c.taken) (hreturned : c'.returned = c.returned) : Handled c' := by
  simpa only [Handled, hcontrol, htaken, hreturned] using h

theorem handled_stopped {c : Conn} {why : Refusal} (hstopped : c.control = .stopped why)
    (h : c.returned.map Prod.fst <+: requests c.taken) : Handled c := by
  rw [Handled, hstopped]
  exact h

theorem Handled.eq_of_loop {c : Conn} (h : Handled c) (hloop : c.control = .loop) :
    c.returned.map Prod.fst = requests c.taken := by
  rwa [Handled, hloop] at h

theorem handled_of_eq_requests {c : Conn} (hcontrol : c.control = .idle ∨ c.control = .loop)
    (h : c.returned.map Prod.fst = requests c.taken) : Handled c := by
  rcases hcontrol with hc | hc <;> rw [Handled, hc] <;> exact h

theorem handled_take {c c' : Conn} {p : Packet} (h : Handled c) (hloop : c.control = .loop)
    (hp : requests [p] = []) (htaken : c'.taken = c.taken ++ [p]) (hreturned : c'.returned = c.returned)
    (hcontrol : (∃ why, c'.control = .stopped why) ∨ c'.control = .loop) : Handled c' := by
  have heq : c'.returned.map Prod.fst = requests c'.taken := by
    rw [hreturned, htaken, requests_append, hp, List.append_nil, h.eq_of_loop hloop]
  rcases hcontrol with ⟨why, hstopped⟩ | hloop'
  · exact handled_stopped hstopped (heq ▸ List.prefix_refl _)
  · exact handled_of_eq_requests (.inr hloop') heq

/-- The head in whose body the reading is has the version that was remembered. -/
theorem ver_of_framed {max : ℕ} {c : Conn} (h : Framed max c) (hloop : c.control = .loop)
    (hstate : c.m_state = .body) : c.m_oponent_protocol_ver = c.m_current_head.m_protocol_version := by
  obtain ⟨-, tail, -, -, -, hunread⟩ := h
  rw [Unread, hloop] at hunread
  have hbehind : Behind max c tail := hunread
  rw [Behind, hstate] at hbehind
  obtain ⟨-, -, -, -, hver, -⟩ := hbehind
  exact hver

/-- The three ways a packet goes: to a callback, to a handler that returns data, to one that does not. -/
theorem iterateBody_cases {max : ℕ} {c : Conn} (hframed : Framed max c) (hloop : c.control = .loop)
    (hstate : c.m_state = .body) (outer : Bool) :
    c.iterateBody outer = { c with control := .idle } ∨
      ∃ p d, (d : Conn) = { c with
          m_cache_in_buffer := c.m_cache_in_buffer.drop c.m_current_head.m_cb.toNat
          taken := c.taken ++ [p] } ∧ p.head = c.m_current_head ∧
        (p.isResponse = true ∧ c.iterateBody outer = d.onResponse p.body outer ∨
          p.isInvoke = true ∧ p.isResponse = false ∧ c.iterateBody outer = { d with control := .invoking p } ∨
          p.isInvoke = false ∧ p.isResponse = false ∧ c.iterateBody outer = { d with m_state := .head }) := by
  have hver := ver_of_framed hframed hloop hstate
  unfold Conn.iterateBody
  dsimp only
  split_ifs with hshort hresponse hinvoke
  · exact .inl rfl
  all_goals refine .inr ⟨⟨c.m_current_head, c.m_cache_in_buffer.take c.m_current_head.m_cb.toNat⟩, _, rfl,
    rfl, ?_⟩
  all_goals rw [hver] at hresponse
  · exact .inl ⟨decide_eq_true hresponse, rfl⟩
  · have hno : Packet.isResponse
        ⟨c.m_current_head, c.m_cache_in_buffer.take c.m_current_head.m_cb.toNat⟩ = false :=
      decide_eq_false hresponse
    exact .inr (.inl ⟨by rw [Packet.isInvoke, hno]; exact hinvoke, hno, rfl⟩)
  · have hno : Packet.isResponse
        ⟨c.m_current_head, c.m_cache_in_buffer.take c.m_current_head.m_cb.toNat⟩ = false :=
      decide_eq_false hresponse
    exact .inr (.inr ⟨by rw [Packet.isInvoke, hno]; simpa using hinvoke, hno, rfl⟩)

theorem requests_of_isResponse {p : Packet} (h : p.isResponse = true) : requests [p] = [] := by
  simp [requests, Packet.isInvoke, h]

theorem handled_onResponse {c : Conn} {p : Packet} {d : Conn} (h : Handled c) (hloop : c.control = .loop)
    (hp : p.isResponse = true) (hd : d.control = .loop) (htaken : d.taken = c.taken ++ [p])
    (hreturned : d.returned = c.returned) (outer : Bool) : Handled (d.onResponse p.body outer) := by
  have hnone := requests_of_isResponse hp
  unfold Conn.onResponse
  split
  · split_ifs
    · exact handled_take h hloop hnone htaken hreturned (.inr hd)
    · exact handled_take h hloop hnone htaken hreturned (.inr hd)
  · split_ifs
    · exact handled_take h hloop hnone htaken hreturned (.inl ⟨_, rfl⟩)
    · exact handled_take h hloop hnone htaken hreturned (.inr hd)

theorem handled_iterate {max : ℕ} {c : Conn} (h : Handled c) (hframed : Framed max c)
    (hloop : c.control = .loop) (outer : Bool) : Handled (c.iterate max outer) := by
  have heq := h.eq_of_loop hloop
  unfold Conn.iterate
  split
  · rename_i hstate
    rcases iterateBody_cases hframed hloop hstate outer with hidle | ⟨p, d, hd, -, hcase⟩
    · rw [hidle]
      exact handled_of_eq_requests (.inl rfl) heq
    · have htaken : d.taken = c.taken ++ [p] := by rw [hd]
      have hreturned : d.returned = c.returned := by rw [hd]
      have hdloop : d.control = .loop := by rw [hd]; exact hloop
      rcases hcase with ⟨hp, hto⟩ | ⟨hp, -, hto⟩ | ⟨hp, -, hto⟩
      · rw [hto]
        exact handled_onResponse h hloop hp hdloop htaken hreturned outer
      · rw [hto]
        show d.returned.map Prod.fst ++ [p] = requests d.taken
        rw [hreturned, htaken, requests_append, heq, requests, requests,
          List.filter_cons_of_pos hp, List.filter_nil]
      · rw [hto]
        refine handled_take h hloop ?_ htaken hreturned (.inr hdloop)
        rw [requests, List.filter_cons_of_neg (by rw [hp]; exact Bool.false_ne_true), List.filter_nil]
  · unfold Conn.iterateHead
    dsimp only
    split_ifs
    · exact handled_stopped rfl h.inOrder
    · exact handled_of_eq_requests (.inl rfl) heq
    · exact handled_stopped rfl h.inOrder
    · exact handled_stopped rfl h.inOrder
    · exact handled_of_eq_requests (.inr hloop) heq

theorem handled_ret {c : Conn} {request : Packet} (h : Handled c) (hinvoking : c.control = .invoking request)
    (code : Int32) (buff : Blob) (sendOk : Bool) : Handled (c.ret request code buff sendOk) := by
  unfold Conn.ret
  dsimp only
  split_ifs
  · exact handled_stopped rfl h.inOrder
  · rw [Handled, hinvoking] at h
    refine handled_of_eq_requests (.inr rfl) ?_
    show (c.returned ++ [(request, code, buff)]).map Prod.fst = requests c.taken
    rw [← h, List.map_append]
    rfl

theorem handled_step {max : ℕ} {c c' : Conn} {a : Act} (h : Handled c) (hframed : Framed max c)
    (hstep : c.step max a = some c') : Handled c' := by
  cases a with
  | asyncInvoke command buff headOk refOk bodyOk =>
    obtain ⟨-, hstep⟩ := Option.ite_none_right_eq_some.mp hstep
    obtain rfl := Option.some.inj hstep
    unfold Conn.asyncInvoke
    dsimp only
    split_ifs <;> exact h.of_eq rfl rfl rfl
  | notify command buff headOk bodyOk =>
    obtain ⟨-, hstep⟩ := Option.ite_none_right_eq_some.mp hstep
    obtain rfl := Option.some.inj hstep
    unfold Conn.notify
    dsimp only
    split_ifs <;> exact h.of_eq rfl rfl rfl
  | recv chunk =>
    obtain ⟨hidle, hstep⟩ := Option.ite_none_right_eq_some.mp hstep
    obtain rfl := Option.some.inj hstep
    unfold Conn.recv
    split_ifs
    · exact handled_stopped rfl h.inOrder
    · exact handled_stopped rfl h.inOrder
    · rw [Handled, hidle] at h
      exact handled_of_eq_requests (.inr rfl) h
  | iterate outer =>
    obtain ⟨hloop, hstep⟩ := Option.ite_none_right_eq_some.mp hstep
    obtain rfl := Option.some.inj hstep
    exact handled_iterate h hframed hloop outer
  | ret code buff sendOk =>
    obtain ⟨request, hinvoking, -, rfl⟩ := ret_eq_some hstep
    exact handled_ret h hinvoking code buff sendOk
  | timeout i =>
    obtain ⟨a, -, -, rfl⟩ := timeout_eq_some hstep
    exact h.of_eq rfl rfl rfl
  | close =>
    obtain rfl := Option.some.inj hstep
    exact h.of_eq rfl rfl rfl
  | shutdown =>
    obtain rfl := Option.some.inj hstep
    exact h.of_eq rfl rfl rfl

/-- No further response reaches a callback: the list was cleared, or its first handler's timer is over. -/
def Blocked (c : Conn) : Prop :=
  c.m_was_shutdown = true ∨ ∃ h hs, c.m_invoke_response_handlers = h :: hs ∧ h.m_timer ≠ .running

/-- The calls answered are the first ones asked, with the first values that came. -/
structure Matched (c : Conn) : Prop where
  asked : c.answered.map Prod.fst <+: c.asked.map Prod.fst
  waiting : c.m_was_shutdown = false →
    c.answered.map Prod.fst ++ c.m_invoke_response_handlers.map InvokeHandler.m_cb = c.asked.map Prod.fst
  values : c.answered.map Prod.snd <+: responses c.taken
  all : Blocked c ∨ c.answered.map Prod.snd = responses c.taken

theorem matched_init : Matched Conn.init :=
  ⟨List.prefix_refl _, fun _ => rfl, List.prefix_refl _, .inr rfl⟩

theorem Matched.of_eq {c c' : Conn} (h : Matched c) (hdown : c'.m_was_shutdown = c.m_was_shutdown)
    (hhandlers : c'.m_invoke_response_handlers = c.m_invoke_response_handlers)
    (hanswered : c'.answered = c.answered) (hasked : c'.asked = c.asked)
    (htaken : responses c'.taken = responses c.taken) : Matched c' := by
  refine ⟨?_, ?_, ?_, ?_⟩
  · rw [hanswered, hasked]
    exact h.asked
  · rw [hdown, hanswered, hhandlers, hasked]
    exact h.waiting
  · rw [hanswered, htaken]
    exact h.values
  · rw [Blocked, hdown, hhandlers, hanswered, htaken]
    exact h.all

theorem matched_asyncInvoke {c : Conn} (h : Matched c) (command : UInt32) (buff : Blob)
    (headOk refOk bodyOk : Bool) : Matched (c.asyncInvoke command buff headOk refOk bodyOk) := by
  -- a handler is put behind those that wait
  have hadd {d : Conn} (p : Packet) (t : Timer) (hdown : d.m_was_shutdown = c.m_was_shutdown)
      (hhandlers : d.m_invoke_response_handlers = c.m_invoke_response_handlers ++ [⟨c.calls, t⟩])
      (hanswered : d.answered = c.answered) (hasked : d.asked = c.asked ++ [(c.calls, p)])
      (htaken : d.taken = c.taken) : Matched d := by
    refine ⟨?_, ?_, ?_, ?_⟩
    · rw [hanswered, hasked, List.map_append]
      exact h.asked.trans (List.prefix_append _ _)
    · intro hopen
      rw [hanswered, hhandlers, hasked, List.map_append, List.map_append, ← List.append_assoc,
        h.waiting (hdown.symm.trans hopen)]
      rfl
    · rw [hanswered, htaken]
      exact h.values
    · rw [hanswered, htaken]
      refine h.all.imp_left ?_
      rintro (hshut | ⟨first, hs, heq, hover⟩)
      · exact .inl (hdown.trans hshut)
      · exact .inr ⟨first, hs ++ [⟨c.calls, t⟩], by rw [hhandlers, heq, List.cons_append], hover⟩
  unfold Conn.asyncInvoke
  by_cases hhead : c.m_was_shutdown ∨ headOk = false
  · rw [if_pos hhead]
    exact h.of_eq rfl rfl rfl rfl rfl
  · rw [if_neg hhead]
    cases refOk
    · exact hadd _ _ rfl rfl rfl rfl rfl
    · cases bodyOk
      · exact hadd _ _ rfl rfl rfl rfl rfl
      · exact hadd _ _ rfl rfl rfl rfl rfl

theorem matched_onResponse {c d : Conn} {p : Packet} (h : Matched c) (htidy : Tidy c) (hp : p.isResponse = true)
    (hhead : p.head = d.m_current_head) (htaken : d.taken = c.taken ++ [p])
    (hdown : d.m_was_shutdown = c.m_was_shutdown)
    (hhandlers : d.m_invoke_response_handlers = c.m_invoke_response_handlers)
    (hanswered : d.answered = c.answered) (hasked : d.asked = c.asked)
    (hcount : (responses (c.taken ++ [p])).length ≤ c.asked.length) (outer : Bool) :
    Matched (d.onResponse p.body outer) := by
  have hvalue : responses [p] = [(d.m_current_head.m_return_code, p.body)] := by
    rw [responses, List.filter_cons_of_pos hp, List.filter_nil, List.map_singleton, Packet.value, hhead]
  have hresponses : responses d.taken =
      responses c.taken ++ [(d.m_current_head.m_return_code, p.body)] := by
    rw [htaken, responses_append, hvalue]
  -- nothing is called, since the list is cleared or blocked
  have hdrop {e : Conn} (hblocked : Blocked c) (hdown' : e.m_was_shutdown = d.m_was_shutdown)
      (hhandlers' : e.m_invoke_response_handlers = d.m_invoke_response_handlers)
      (hanswered' : e.answered = d.answered) (hasked' : e.asked = d.asked) (htaken' : e.taken = d.taken) :
      Matched e := by
    refine ⟨?_, ?_, ?_, .inl ?_⟩
    · rw [hanswered', hanswered, hasked', hasked]
      exact h.asked
    · rw [hdown', hdown, hanswered', hanswered, hhandlers', hhandlers, hasked', hasked]
      exact h.waiting
    · rw [hanswered', hanswered, htaken', hresponses]
      exact h.values.trans (List.prefix_append _ _)
    · rw [Blocked, hdown', hdown, hhandlers', hhandlers]
      exact hblocked
  unfold Conn.onResponse
  split
  · rename_i first hs heq
    rw [hhandlers] at heq
    split_ifs with hrun
    · have hshut : c.m_was_shutdown = false := by
        rw [← Bool.not_eq_true]
        exact fun hdown' => absurd (heq.symm.trans (htidy.handlers hdown')) (List.cons_ne_nil _ _)
      have hwait := h.waiting hshut
      rw [heq, List.map_cons, List.append_cons] at hwait
      have hall : c.answered.map Prod.snd = responses c.taken := by
        refine h.all.resolve_left ?_
        rintro (hdown' | ⟨first', hs', heq', hover⟩)
        · rw [hshut] at hdown'
          cases hdown'
        · obtain ⟨rfl, -⟩ := List.cons.inj (heq.symm.trans heq')
          exact hover hrun
      have hfst : (c.answered ++ [(first.m_cb, d.m_current_head.m_return_code, p.body)]).map Prod.fst =
          c.answered.map Prod.fst ++ [first.m_cb] := by
        rw [List.map_append, List.map_singleton]
      have hsnd : (c.answered ++ [(first.m_cb, d.m_current_head.m_return_code, p.body)]).map Prod.snd =
          responses d.taken := by
        rw [List.map_append, List.map_singleton, hall, hresponses]
      refine ⟨?_, fun _ => ?_, ?_, .inr ?_⟩
      · show (d.answered ++ _).map Prod.fst <+: d.asked.map Prod.fst
        rw [hanswered, hasked, hfst, ← hwait]
        exact List.prefix_append _ _
      · show (d.answered ++ _).map Prod.fst ++ hs.map InvokeHandler.m_cb = d.asked.map Prod.fst
        rw [hanswered, hasked, hfst, hwait]
      · show (d.answered ++ _).map Prod.snd <+: responses d.taken
        rw [hanswered, hsnd]
      · show (d.answered ++ _).map Prod.snd = responses d.taken
        rw [hanswered, hsnd]
    · exact hdrop (.inr ⟨first, hs, heq, hrun⟩) rfl rfl rfl rfl rfl
  · rename_i heq
    rw [hhandlers] at heq
    have hblocked : Blocked c := by
      by_contra hnot
      -- every call was answered by one of the responses, so this one is too many
      have hopen : c.m_was_shutdown = false := by
        rw [← Bool.not_eq_true]
        exact fun hshut => hnot (.inl hshut)
      have hwait := congrArg List.length (h.waiting hopen)
      have hall := congrArg List.length (h.all.resolve_left hnot)
      rw [heq, List.map_nil, List.append_nil, List.length_map, List.length_map] at hwait
      rw [List.length_map] at hall
      rw [responses_append, hvalue, List.length_append, List.length_singleton] at hcount
      omega
    split_ifs
    · exact hdrop hblocked rfl rfl rfl rfl rfl
    · exact hdrop hblocked rfl rfl rfl rfl rfl

theorem map_m_cb_set {hs : List InvokeHandler} {i : ℕ} {a : InvokeHandler} {t : Timer}
    (ha : hs[i]? = some a) :
    (hs.set i { a with m_timer := t }).map InvokeHandler.m_cb = hs.map InvokeHandler.m_cb := by
  induction hs generalizing i with
  | nil => rfl
  | cons h hs ih =>
    cases i with
    | zero =>
      obtain rfl := Option.some.inj ha
      rfl
    | succ i => rw [List.set_cons_succ, List.map_cons, List.map_cons, ih ha]

theorem taken_onResponse (c : Conn) (buff : Blob) (outer : Bool) :
    (c.onResponse buff outer).taken = c.taken := by
  unfold Conn.onResponse
  split
  · split_ifs <;> rfl
  · split_ifs <;> rfl

theorem matched_iterate {max : ℕ} {c : Conn} (h : Matched c) (htidy : Tidy c) (hframed : Framed max c)
    (hloop : c.control = .loop) (outer : Bool)
    (hcount : (responses (c.iterate max outer).taken).length ≤ (c.iterate max outer).asked.length) :
    Matched (c.iterate max outer) := by
  have hasked : (c.iterate max outer).asked = c.asked :=
    congrArg (fun o => o.2.2.2.1) (output_iterate max c outer)
  rw [hasked] at hcount
  revert hcount
  unfold Conn.iterate
  split
  · rename_i hstate
    rcases iterateBody_cases hframed hloop hstate outer with hidle | ⟨p, d, hd, hhead, hcase⟩
    · rw [hidle]
      exact fun _ => h.of_eq rfl rfl rfl rfl rfl
    · have htaken : d.taken = c.taken ++ [p] := by rw [hd]
      have hdown : d.m_was_shutdown = c.m_was_shutdown := by rw [hd]
      have hhandlers : d.m_invoke_response_handlers = c.m_invoke_response_handlers := by rw [hd]
      have hanswered : d.answered = c.answered := by rw [hd]
      have hasked' : d.asked = c.asked := by rw [hd]
      have hnone (hp : p.isResponse = false) : responses d.taken = responses c.taken := by
        rw [htaken, responses_append, responses, responses, List.filter_cons_of_neg (by simp [hp]),
          List.filter_nil, List.map_nil, List.append_nil]
      rcases hcase with ⟨hp, hto⟩ | ⟨-, hp, hto⟩ | ⟨-, hp, hto⟩
      · rw [hto, taken_onResponse, htaken]
        have hhead' : p.head = d.m_current_head := by rw [hd, hhead]
        exact fun hcount =>
          matched_onResponse h htidy hp hhead' htaken hdown hhandlers hanswered hasked' hcount outer
      · rw [hto]
        exact fun _ => h.of_eq hdown hhandlers hanswered hasked' (hnone hp)
      · rw [hto]
        exact fun _ => h.of_eq hdown hhandlers hanswered hasked' (hnone hp)
  · intro _
    unfold Conn.iterateHead
    dsimp only
    split_ifs <;> exact h.of_eq rfl rfl rfl rfl rfl

theorem matched_step {max : ℕ} {c c' : Conn} {a : Act} (h : Matched c) (htidy : Tidy c)
    (hframed : Framed max c) (hstep : c.step max a = some c')
    (hcount : (responses c'.taken).length ≤ c'.asked.length) : Matched c' := by
  cases a with
  | asyncInvoke command buff headOk refOk bodyOk =>
    obtain ⟨-, hstep⟩ := Option.ite_none_right_eq_some.mp hstep
    obtain rfl := Option.some.inj hstep
    exact matched_asyncInvoke h command buff headOk refOk bodyOk
  | notify command buff headOk bodyOk =>
    obtain ⟨-, hstep⟩ := Option.ite_none_right_eq_some.mp hstep
    obtain rfl := Option.some.inj hstep
    unfold Conn.notify
    dsimp only
    split_ifs <;> exact h.of_eq rfl rfl rfl rfl rfl
  | recv chunk =>
    obtain ⟨-, hstep⟩ := Option.ite_none_right_eq_some.mp hstep
    obtain rfl := Option.some.inj hstep
    unfold Conn.recv
    split_ifs <;> exact h.of_eq rfl rfl rfl rfl rfl
  | iterate outer =>
    obtain ⟨hloop, hstep⟩ := Option.ite_none_right_eq_some.mp hstep
    obtain rfl := Option.some.inj hstep
    exact matched_iterate h htidy hframed hloop outer hcount
  | ret code buff sendOk =>
    obtain ⟨request, -, -, rfl⟩ := ret_eq_some hstep
    unfold Conn.ret
    dsimp only
    split_ifs <;> exact h.of_eq rfl rfl rfl rfl rfl
  | timeout i =>
    obtain ⟨a, ha, hrun, rfl⟩ := timeout_eq_some hstep
    refine ⟨h.asked, fun hopen => ?_, h.values, h.all.imp_left ?_⟩
    · show _ ++ (c.m_invoke_response_handlers.set i _).map InvokeHandler.m_cb = _
      rw [map_m_cb_set ha]
      exact h.waiting hopen
    · rintro (hshut | ⟨first, hs, heq, hover⟩)
      · exact .inl hshut
      · right
        cases i with
        | zero => exact ⟨_, hs, by rw [heq, List.set_cons_zero], Timer.noConfusion⟩
        | succ i => exact ⟨first, hs.set i _, by rw [heq, List.set_cons_succ], hover⟩
  | close =>
    obtain rfl := Option.some.inj hstep
    exact h.of_eq rfl rfl rfl rfl rfl
  | shutdown =>
    obtain rfl := Option.some.inj hstep
    exact ⟨h.asked, Bool.noConfusion, h.values, .inl (.inl rfl)⟩

theorem received_iterate (max : ℕ) (c : Conn) (outer : Bool) :
    (c.iterate max outer).received = c.received := by
  unfold Conn.iterate
  split
  · unfold Conn.iterateBody
    dsimp only
    split_ifs
    · rfl
    · unfold Conn.onResponse
      dsimp only
      split
      · split_ifs <;> rfl
      · split_ifs <;> rfl
    · rfl
    · rfl
  · unfold Conn.iterateHead
    dsimp only
    split_ifs <;> rfl

theorem received_step {max : ℕ} {c c' : Conn} {a : Act} (hstep : c.step max a = some c') :
    c'.received = c.received ∨ ∃ chunk, a = .recv chunk ∧ c'.received = c.received ++ chunk := by
  cases a with
  | asyncInvoke command buff headOk refOk bodyOk =>
    obtain ⟨-, hstep⟩ := Option.ite_none_right_eq_some.mp hstep
    obtain rfl := Option.some.inj hstep
    have := input_asyncInvoke c command buff headOk refOk bodyOk
    exact .inl (congrArg (fun i => i.2.2.2.2.2.1) this)
  | notify command buff headOk bodyOk =>
    obtain ⟨-, hstep⟩ := Option.ite_none_right_eq_some.mp hstep
    obtain rfl := Option.some.inj hstep
    have := input_notify c command buff headOk bodyOk
    exact .inl (congrArg (fun i => i.2.2.2.2.2.1) this)
  | recv chunk =>
    obtain ⟨-, hstep⟩ := Option.ite_none_right_eq_some.mp hstep
    obtain rfl := Option.some.inj hstep
    unfold Conn.recv
    split_ifs
    · exact .inl rfl
    · exact .inl rfl
    · exact .inr ⟨chunk, rfl, rfl⟩
  | iterate outer =>
    obtain ⟨-, hstep⟩ := Option.ite_none_right_eq_some.mp hstep
    obtain rfl := Option.some.inj hstep
    exact .inl (received_iterate max c outer)
  | ret code buff sendOk =>
    obtain ⟨request, -, -, rfl⟩ := ret_eq_some hstep
    left
    unfold Conn.ret
    dsimp only
    split_ifs <;> rfl
  | timeout i =>
    obtain ⟨a, -, -, rfl⟩ := timeout_eq_some hstep
    exact .inl rfl
  | close =>
    obtain rfl := Option.some.inj hstep
    exact .inl rfl
  | shutdown =>
    obtain rfl := Option.some.inj hstep
    exact .inl rfl

/-- What holds of the two ends whatever was sent. -/
structure Wired (max : Bool → ℕ) (l : Link) : Prop where
  framed : ∀ side, Framed (max side) (l side)
  outgoing : ∀ side, Outgoing (l side)
  handled : ∀ side, Handled (l side)
  tidy : ∀ side, Tidy (l side)
  joined : ∀ side, (l side).received <+: (l !side).sent

theorem link_step_at {max : Bool → ℕ} {l : Link} {side : Bool} {act : Act}
    (hno : ∀ chunk, act ≠ .recv chunk) :
    l.step max side (.at act) =
      ((l side).step (max side) act).map fun c => Function.update l side c := by
  cases act with
  | recv chunk => exact absurd rfl (hno chunk)
  | _ => rfl

theorem link_step_eq_some {max : Bool → ℕ} {l l' : Link} {side : Bool} {a : LinkAct}
    (hjoined : (l side).received <+: (l !side).sent) (h : l.step max side a = some l') :
    ∃ act c', (l side).step (max side) act = some c' ∧ l' = Function.update l side c' ∧
      c'.received <+: (l !side).sent := by
  cases a with
  | «at» act =>
    have hno (chunk : Blob) : act ≠ .recv chunk := by
      rintro rfl
      cases h
    rw [link_step_at hno] at h
    obtain ⟨c', hc', rfl⟩ := Option.map_eq_some_iff.mp h
    refine ⟨act, c', hc', rfl, ?_⟩
    rcases received_step hc' with heq | ⟨chunk, rfl, -⟩
    · exact heq ▸ hjoined
    · exact absurd rfl (hno chunk)
  | deliver k =>
    obtain ⟨c', hc', rfl⟩ := Option.map_eq_some_iff.mp h
    refine ⟨_, c', hc', rfl, ?_⟩
    rcases received_step hc' with heq | ⟨chunk, hchunk, heq⟩
    · exact heq ▸ hjoined
    · obtain rfl := Act.recv.inj hchunk
      obtain ⟨r, hr⟩ := hjoined
      rw [heq, ← hr, List.drop_left]
      exact (List.prefix_append_right_inj _).mpr (List.take_prefix k r)

theorem wired_init (max : Bool → ℕ) : Wired max Link.init where
  framed _ := framed_init _
  outgoing _ := outgoing_init
  handled _ := handled_of_eq_requests (.inl rfl) rfl
  tidy _ := ⟨fun _ => rfl, List.Sublist.refl _⟩
  joined _ := List.prefix_refl _

/-- A property of one end that its steps keep is kept at both. -/
theorem forall_update {P : Bool → Conn → Prop} {l : Link} {side : Bool} {c : Conn}
    (h : ∀ s, P s (l s)) (hc : P side c) (s : Bool) : P s (Function.update l side c s) := by
  by_cases hs : s = side
  · subst hs
    rwa [Function.update_self]
  · rw [Function.update_of_ne hs]
    exact h s

theorem Wired.step {max : Bool → ℕ} {l l' : Link} {side : Bool} {a : LinkAct} (h : Wired max l)
    (hstep : l.step max side a = some l') : Wired max l' := by
  obtain ⟨act, c, hc, rfl, hreceived⟩ := link_step_eq_some (h.joined side) hstep
  refine ⟨?_, ?_, ?_, ?_, ?_⟩
  · exact forall_update (P := fun s => Framed (max s)) h.framed (framed_step (h.framed side) hc)
  · exact forall_update (P := fun _ => Outgoing) h.outgoing (outgoing_step (h.outgoing side) hc)
  · exact forall_update (P := fun _ => Handled) h.handled
      (handled_step (h.handled side) (h.framed side) hc)
  · exact forall_update (P := fun _ => Tidy) h.tidy (tidy_step (h.tidy side) hc)
  · intro s
    by_cases hs : s = side
    · subst hs
      rw [Function.update_self, Function.update_of_ne (Bool.not_ne_self s)]
      exact hreceived
    · have hother : (!s) = side := by rw [← Bool.eq_not_of_ne (Ne.symm hs)]
      rw [Function.update_of_ne hs, hother, Function.update_self]
      exact (hother ▸ h.joined s).trans (sent_step hc).1

theorem Wired.taken_posted {max : Bool → ℕ} {l : Link} (h : Wired max l) (side : Bool)
    (huntorn : (l !side).torn = false) : (l side).taken <+: (l !side).posted := by
  obtain ⟨raws, tail, hraws, hdecode, hreceived, -⟩ := h.framed side
  have hsent := (h.outgoing !side).sent huntorn
  have hencode : (l !side).posted.flatMap Packet.bytes = ((l !side).posted.map encode).flatMap bytes := by
    rw [List.flatMap_map]
    rfl
  have hbytes : raws.flatMap bytes <+: ((l !side).posted.map encode).flatMap bytes := by
    rw [← hencode, ← hsent]
    refine List.IsPrefix.trans ⟨tail, hreceived.symm⟩ (h.joined side)
  have hwhole : ∀ q ∈ (l !side).posted.map encode, WholeBytes q := by
    intro q hq
    obtain ⟨p, hp, rfl⟩ := List.mem_map.mp hq
    exact whole_encode ((h.outgoing !side).body p hp)
  have hpre := (parts_of_front_bytes hraws hwhole (by decide) hbytes).map decode
  rw [hdecode, List.map_map] at hpre
  have hid : decode ∘ encode = id := funext decode_encode
  rwa [hid, List.map_id] at hpre

/-- The values that came are the first ones returned, for the first packets asked. -/
theorem Wired.responses_returned {max : Bool → ℕ} {l : Link} (h : Wired max l) (side : Bool)
    (huntorn : ∀ s, (l s).torn = false) :
    responses (l side).taken <+: (l !side).returned.map Prod.snd ∧
      (l !side).returned.map Prod.fst <+: (l side).asked.map Prod.snd := by
  constructor
  · rw [← (h.outgoing !side).returned]
    exact responses_mono (h.taken_posted side (huntorn _))
  · rw [← (h.outgoing side).asked]
    have hback := h.taken_posted (!side) (huntorn _)
    rw [Bool.not_not] at hback
    exact (h.handled !side).inOrder.trans (requests_mono hback)

theorem Wired.count {max : Bool → ℕ} {l : Link} (h : Wired max l) (side : Bool)
    (huntorn : ∀ s, (l s).torn = false) :
    (responses (l side).taken).length ≤ (l side).asked.length := by
  obtain ⟨hvalues, hasked⟩ := h.responses_returned side huntorn
  have h1 := hvalues.length_le
  have h2 := hasked.length_le
  simp only [List.length_map] at h1 h2
  exact h1.trans h2

/-- While nothing is torn, the callbacks are matched with the responses at both ends. -/
def Linked (max : Bool → ℕ) (l : Link) : Prop :=
  Wired max l ∧ ((∀ s, (l s).torn = false) → ∀ s, Matched (l s))

theorem linked_step {max : Bool → ℕ} {l l' : Link} {side : Bool} {a : LinkAct} (h : Linked max l)
    (hstep : l.step max side a = some l') : Linked max l' := by
  obtain ⟨hwired, hmatched⟩ := h
  have hwired' := hwired.step hstep
  refine ⟨hwired', fun huntorn => ?_⟩
  have hcount := hwired'.count side huntorn
  obtain ⟨act, c, hc, rfl, -⟩ := link_step_eq_some (hwired.joined side) hstep
  have hbefore : ∀ s, (l s).torn = false := by
    intro s
    have hs := huntorn s
    by_cases heq : s = side
    · subst heq
      rw [Function.update_self] at hs
      exact (sent_step hc).2 hs
    · rwa [Function.update_of_ne heq] at hs
  rw [Function.update_self] at hcount
  exact forall_update (P := fun _ => Matched) (hmatched hbefore)
    (matched_step (hmatched hbefore side) (hwired.tidy side) (hwired.framed side) hc hcount)

theorem linked_of_run {max : Bool → ℕ} {l l' : Link} {acts : List (Bool × LinkAct)} (h : Linked max l)
    (hrun : l.run max acts = some l') : Linked max l' := by
  induction acts generalizing l with
  | nil =>
    obtain rfl := Option.some.inj hrun
    exact h
  | cons a acts ih =>
    obtain ⟨d, hd, hrun⟩ := Option.bind_eq_some_iff.mp hrun
    exact ih (linked_step h hd) hrun

/-- However the packets of two sides are interleaved, cut and delayed, the callbacks called with a response
are those of the first calls, each with what the other side's handler returned for the packet of its call. -/
theorem responses_match {max : Bool → ℕ} {acts : List (Bool × LinkAct)} {l : Link}
    (hrun : Link.init.run max acts = some l) (huntorn : ∀ s, (l s).torn = false) (side : Bool) :
    ∃ asked returned, asked <+: (l side).asked ∧ returned <+: (l !side).returned ∧
      (l side).answered.map Prod.fst = asked.map Prod.fst ∧
      (l side).answered.map Prod.snd = returned.map Prod.snd ∧
      returned.map Prod.fst = asked.map Prod.snd := by
  obtain ⟨hwired, hmatched⟩ := linked_of_run ⟨wired_init max, fun _ _ => matched_init⟩ hrun
  have h := hmatched huntorn side
  obtain ⟨hvalues, hasked⟩ := hwired.responses_returned side huntorn
  have htook : (l side).answered.map Prod.snd <+: (l !side).returned.map Prod.snd := h.values.trans hvalues
  have hle := htook.length_le
  rw [List.length_map, List.length_map] at hle
  refine ⟨(l side).asked.take (l side).answered.length, (l !side).returned.take (l side).answered.length,
    List.take_prefix _ _, List.take_prefix _ _, ?_, ?_, ?_⟩
  · have := List.prefix_iff_eq_take.mp h.asked
    rwa [List.length_map, ← List.map_take] at this
  · have := List.prefix_iff_eq_take.mp htook
    rwa [List.length_map, ← List.map_take] at this
  · rw [List.map_take, List.map_take, List.prefix_iff_eq_take.mp hasked, List.take_take, List.length_map,
      min_eq_left hle]

/-- Two calls of one side and one of the other, with the first pieces cut inside the second packet. -/
def sampleLink : List (Bool × LinkAct) :=
  [(true, .at (.asyncInvoke 1001 [1] true true true)), (false, .at (.asyncInvoke 1002 [2, 2] true true true)),
    (true, .at (.asyncInvoke 1003 [] true true true)), (false, .deliver 40), (false, .at (.iterate false)),
    (false, .at (.iterate false)), (false, .at (.ret 7 [9] true)), (false, .at (.iterate false)),
    (false, .deliver 100), (false, .at (.iterate false)), (false, .at (.iterate false)),
    (false, .at (.ret 8 [] true)), (true, .deliver 200), (true, .at (.iterate false)),
    (true, .at (.iterate false)), (true, .at (.ret 3 [4] true)), (true, .at (.iterate false)),
    (true, .at (.iterate false)), (true, .at (.iterate false)), (true, .at (.iterate false)),
    (false, .at (.iterate false)), (false, .deliver 100), (false, .at (.iterate false)),
    (false, .at (.iterate false))]

theorem sampleLink_runs : (Link.init.run (fun _ => 200) sampleLink).isSome := by decide

theorem responses_match_sample :
    ((Link.init.run (fun _ => 200) sampleLink).get sampleLink_runs true).answered =
        [(0, 7, [9]), (1, 8, [])] ∧
      ((Link.init.run (fun _ => 200) sampleLink).get sampleLink_runs false).answered = [(0, 3, [4])] ∧
      ∃ asked returned,
        asked <+: ((Link.init.run (fun _ => 200) sampleLink).get sampleLink_runs true).asked ∧
        returned <+: ((Link.init.run (fun _ => 200) sampleLink).get sampleLink_runs false).returned ∧
        ((Link.init.run (fun _ => 200) sampleLink).get sampleLink_runs true).answered.map Prod.fst =
          asked.map Prod.fst ∧
        ((Link.init.run (fun _ => 200) sampleLink).get sampleLink_runs true).answered.map Prod.snd =
          returned.map Prod.snd ∧
        returned.map Prod.fst = asked.map Prod.snd :=
  ⟨by decide, by decide, responses_match (Option.some_get sampleLink_runs).symm (by decide) true⟩

end Levin
end Boolberry
