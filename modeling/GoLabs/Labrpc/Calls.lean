import GoLabs.Labrpc.Steps

/-!
# What a call can rely on

`atMostOnce` is what Raft and the crashes of the tester rely on. The handler of a call is dispatched
at most once, and on a server that the end was connected to during the call. The call is answered at
most once, and with true only if the handler had returned and the server was still in its place
afterwards. So the handler of a server that was deleted before it returned never leads to a positive
answer, unless the same server is added again.

`RequestOk` is what the goroutines of a call keep without any look at the network; the sends that
are still to come count as sent there. The history of a call is in the trace: `Linked` finds the
moment at which its server was looked up, and `Acked` the last look that every positive answer has
passed, with the return of the handler before it and not after it.
-/

namespace GoLabs.Labrpc

open GoLabs.Lib

variable {E N P B : Type} [DecidableEq P] {rn : Network E N P B} {q q' : Request E N P B}
  {b : ReqAction B}

/-! ## The goroutines of a call -/

/-- The handler has not been started yet. -/
def ReqPc.early : ReqPc → Bool
  | unsent | start | connected => true
  | _ => false

/-- How many messages `processReq` has still to send or to leave to a timer. -/
def ReqPc.toSend : ReqPc → ℕ
  | done => 0
  | _ => 1

/-- What the goroutines of a call keep. -/
structure RequestOk (q : Request E N P B) : Prop where
  sending : q.caller = .sending → q.pc = .unsent
  early : q.pc.early → q.handler = .none ∧ q.reply = none
  server : ∀ p, q.handler = .spawned p ∨ q.handler = .running p → q.info.server = some p
  /-- The reply was taken from the handler. -/
  reply : q.reply.isSome → q.handler = .gone
  /-- There is one message in all. -/
  sends : q.sent.length + q.timers.length + q.pc.toSend ≤ 1
  positive : ∀ msg ∈ q.sent ++ q.timers, msg.ok → q.reply.isSome
  returned : q.caller = .returned true → ∃ msg ∈ q.sent, msg.ok

section NoNetwork

omit [DecidableEq P]

/-- A new call keeps the invariant. -/
lemma requestOk_new (e : E) : RequestOk (Request.new e : Request E N P B) where
  sending _ := rfl
  early _ := ⟨rfl, rfl⟩
  server p h := by rcases h with h | h <;> cases h
  reply h := by cases h
  sends := le_refl 1
  positive msg h := by cases h
  returned h := by cases h

/-- `Call` is past its `select` when `processReq` is under way. -/
lemma RequestOk.ne_sending (h : RequestOk q) (hpc : q.pc ≠ .unsent) : q.caller ≠ .sending :=
  fun hc => hpc (h.sending hc)

/-- The handler has not been started where there is a step of `processReq` to come before it. -/
lemma RequestOk.not_early (h : RequestOk q) (hh : q.handler ≠ .none) : ¬ q.pc.early :=
  fun he => hh (h.early he).1

/-- A call that has a reply has started its handler. -/
lemma RequestOk.late_of_reply (h : RequestOk q) (hr : q.reply.isSome) : ¬ q.pc.early := by
  intro he
  rw [(h.early he).2] at hr
  cases hr

/-- The messages of a call, sent or left to a timer, after one more was sent. -/
lemma Request.mem_send {msg m : ReplyMsg B} (h : m ∈ (q.send msg).sent ++ (q.send msg).timers) :
    m ∈ q.sent ++ q.timers ∨ m = msg := by
  change m ∈ (q.sent ++ [msg]) ++ q.timers at h
  rw [List.mem_append, List.mem_append, List.mem_singleton] at h
  rcases h with (h | h) | h
  · exact Or.inl (List.mem_append_left _ h)
  · exact Or.inr h
  · exact Or.inl (List.mem_append_right _ h)

/-- A message that is left to a timer is the only new one. -/
lemma Request.mem_delay {msg m : ReplyMsg B}
    (h : m ∈ (q.delay msg).sent ++ (q.delay msg).timers) : m ∈ q.sent ++ q.timers ∨ m = msg := by
  change m ∈ q.sent ++ (q.timers ++ [msg]) at h
  rwa [← List.append_assoc, List.mem_append, List.mem_singleton] at h

/-- A timer sends what was left to it. -/
lemma Request.mem_fire {k : ℕ} {msg m : ReplyMsg B} (hk : q.timers[k]? = some msg)
    (h : m ∈ (q.sent ++ [msg]) ++ q.timers.eraseIdx k) : m ∈ q.sent ++ q.timers := by
  rw [List.mem_append, List.mem_append, List.mem_singleton] at h
  rcases h with (h | rfl) | h
  · exact List.mem_append_left _ h
  · exact List.mem_append_right _ (List.mem_of_getElem? hk)
  · exact List.mem_append_right _ (List.mem_of_mem_eraseIdx h)

/-- Sending the one message keeps the invariant. -/
lemma RequestOk.send (h : RequestOk q) {msg : ReplyMsg B} (hpc : q.pc ≠ .unsent)
    (hsend : q.pc.toSend = 1) (hmsg : msg.ok → q.reply.isSome) : RequestOk (q.send msg) := by
  have hsends := h.sends
  refine ⟨fun hc => absurd hc (h.ne_sending hpc), fun he => (by cases he), h.server, h.reply, ?_,
    fun m hm hok => ?_, fun hc => ?_⟩
  · change (q.sent ++ [msg]).length + q.timers.length + 0 ≤ 1
    rw [List.length_append, List.length_singleton]
    omega
  · rcases Request.mem_send hm with hm | rfl
    · exact h.positive m hm hok
    · exact hmsg hok
  · obtain ⟨m, hm, hok⟩ := h.returned hc
    exact ⟨m, List.mem_append_left _ hm, hok⟩

/-- Leaving the one message to a timer keeps the invariant. -/
lemma RequestOk.delay (h : RequestOk q) {msg : ReplyMsg B} (hpc : q.pc ≠ .unsent)
    (hsend : q.pc.toSend = 1) (hmsg : msg.ok → q.reply.isSome) : RequestOk (q.delay msg) := by
  have hsends := h.sends
  refine ⟨fun hc => absurd hc (h.ne_sending hpc), fun he => (by cases he), h.server, h.reply, ?_,
    fun m hm hok => ?_, h.returned⟩
  · change q.sent.length + (q.timers ++ [msg]).length + 0 ≤ 1
    rw [List.length_append, List.length_singleton]
    omega
  · rcases Request.mem_delay hm with hm | rfl
    · exact h.positive m hm hok
    · exact hmsg hok

/-- A step of `processReq` that neither sends nor goes back before the start of the handler. -/
lemma RequestOk.advance (h : RequestOk q) (hpc : q.pc ≠ .unsent) {pc : ReqPc}
    {serverDead draining : Bool} (hearly : pc.early → q.pc.early)
    (hsend : pc.toSend ≤ q.pc.toSend) :
    RequestOk { q with pc := pc, serverDead := serverDead, draining := draining } :=
  { h with
    sending := fun hc => absurd hc (h.ne_sending hpc)
    early := fun he => h.early (hearly he)
    sends := le_trans (Nat.add_le_add_left hsend _) h.sends }

/-- A step of the goroutine of the handler. -/
lemma RequestOk.moveHandler (h : RequestOk q) (hh : q.handler ≠ .none) {handler : HandlerPc P B}
    {draining : Bool}
    (hserver : ∀ p, handler = .spawned p ∨ handler = .running p → q.info.server = some p)
    (hreply : q.reply.isSome → handler = .gone) :
    RequestOk { q with handler := handler, draining := draining } :=
  { h with
    early := fun he => absurd he (h.not_early hh)
    server := hserver
    reply := hreply }

end NoNetwork

/-- **One step of a call keeps what its goroutines keep.** -/
theorem ReqStep.requestOk (hst : ReqStep rn q b q') (h : RequestOk q) : RequestOk q' := by
  have hsends := h.sends
  cases hst with
  | accept hc =>
      have hpc := h.sending hc
      rw [hpc] at hsends
      exact { h with
        sending := fun hc => by cases hc
        early := fun _ => h.early (by rw [hpc]; rfl)
        sends := hsends
        returned := fun hc => by cases hc }
  | giveUp hc =>
      exact { h with
        sending := fun hc => by cases hc
        returned := fun hc => by cases hc }
  | link hpc he hn hp =>
      obtain ⟨hhandler, -⟩ := h.early (by rw [hpc]; rfl)
      have hmove : RequestOk { q with pc := .connected } :=
        h.advance (by simp [hpc]) (by simp [hpc, ReqPc.early]) (by simp [hpc, ReqPc.toSend])
      exact { hmove with server := fun p hp => by simp [hhandler] at hp }
  | noLink hpc =>
      obtain ⟨hhandler, -⟩ := h.early (by rw [hpc]; rfl)
      have hinfo : RequestOk { q with info := rn.readEndnameInfo q.endname } :=
        { h with server := fun p hp => by simp [hhandler] at hp }
      exact hinfo.delay (by simp [hpc]) (by simp [hpc, ReqPc.toSend]) (by simp [ReplyMsg.failed])
  | dropRequest hpc =>
      exact h.send (by simp [hpc]) (by simp [hpc, ReqPc.toSend]) (by simp [ReplyMsg.failed])
  | @spawn drop p hpc hp =>
      obtain ⟨-, hreply⟩ := h.early (by rw [hpc]; rfl)
      have hmove : RequestOk { q with pc := .waiting } :=
        h.advance (by simp [hpc]) (by simp [ReqPc.early]) (by simp [hpc, ReqPc.toSend])
      exact { hmove with
        early := fun he => by cases he
        server := fun p' hp' => by
          rcases hp' with hp' | hp'
          · cases hp'
            exact hp
          · cases hp'
        reply := fun hr => by simp [hreply] at hr }
  | @dispatch p hh =>
      refine h.moveHandler (by simp [hh]) (fun p' hp' => ?_) fun hr => ?_
      · rcases hp' with hp' | hp'
        · cases hp'
        · cases hp'
          exact h.server p (Or.inl hh)
      · rw [h.reply hr] at hh
        cases hh
  | complete hh =>
      refine h.moveHandler (by simp [hh]) (fun p' hp' => ?_) fun hr => ?_
      · rcases hp' with hp' | hp' <;> cases hp'
      · rw [h.reply hr] at hh
        cases hh
  | receive hpc hh =>
      have hmove : RequestOk { q with pc := .checking } :=
        h.advance (by simp [hpc]) (by simp [ReqPc.early]) (by simp [hpc, ReqPc.toSend])
      exact { hmove with
        early := fun he => by cases he
        server := fun p' hp' => by rcases hp' with hp' | hp' <;> cases hp'
        reply := fun _ => rfl
        positive := fun _ _ _ => rfl }
  | pollDead hpc =>
      exact h.advance (by simp [hpc]) (by simp [ReqPc.early]) (by simp [hpc, ReqPc.toSend])
  | pollAlive hpc => exact { h with }
  | drain hh =>
      refine h.moveHandler (by simp [hh]) (fun p' hp' => ?_) fun _ => rfl
      rcases hp' with hp' | hp' <;> cases hp'
  | recheck hpc =>
      exact h.advance (by simp [hpc]) (by simp [ReqPc.early]) (by simp [hpc, ReqPc.toSend])
  | answerFailed hpc =>
      exact h.send (by simp [hpc]) (by simp [hpc, ReqPc.toSend]) (by simp [ReplyMsg.failed])
  | answerLate hpc hr hd =>
      exact h.delay (by simp [hpc]) (by simp [hpc, ReqPc.toSend]) (by simp [hr])
  | answer hpc hr hd =>
      exact h.send (by simp [hpc]) (by simp [hpc, ReqPc.toSend]) (by simp [hr])
  | @fire k msg hk =>
      obtain ⟨hlt, hget⟩ := List.getElem?_eq_some_iff.mp hk
      refine { h with
        sends := ?_
        positive := fun m hm hok => h.positive m (Request.mem_fire hk hm) hok
        returned := fun hc => ?_ }
      · dsimp only
        rw [List.length_append, List.length_singleton, List.length_eraseIdx_of_lt hlt]
        omega
      · obtain ⟨m, hm, hok⟩ := h.returned hc
        exact ⟨m, List.mem_append_left _ hm, hok⟩
  | @wake rep hmem =>
      refine { h with
        sending := fun hc => by cases hc
        returned := fun hc => ⟨rep, hmem, ?_⟩ }
      simpa using hc

/-! ## What does not change -/

/-- A call stays at its end. -/
lemma ReqStep.endname (hst : ReqStep rn q b q') : q'.endname = q.endname := by
  cases hst <;> rfl

/-- The server is looked up once. -/
lemma ReqStep.info (hst : ReqStep rn q b q') (hpc : ¬ q.pc.early) : q'.info = q.info := by
  cases hst with
  | link hstart he hn hp => simp [hstart, ReqPc.early] at hpc
  | noLink hstart => simp [hstart, ReqPc.early] at hpc
  | _ => rfl

/-! ## The server of a call -/

/-- At some moment of the call, before or in the last step of the trace, the end was enabled and
connected to the name of a server, and the server that `processReq` has from there on was registered
under it. -/
def Linked (tr : Trace E N P B) (c : ℕ) (q : Request E N P B) : Prop :=
  ∃ x n p, (x, .req c .readEndnameInfo) ∈ tr ∧ x.enabled q.endname ∧
    x.connections q.endname = some n ∧ x.servers n = some p ∧
    q.info.servername = some n ∧ q.info.server = some p

/-- `processReq` has a server, or has started the handler. -/
def Request.hasServer (q : Request E N P B) : Prop := q.pc = .connected ∨ q.handler ≠ .none

omit [DecidableEq P] in
/-- A call that was linked at some moment is one in any longer trace. -/
lemma Linked.mono {tr tr' : Trace E N P B} {c : ℕ} (h : Linked tr c q) (htr : tr ⊆ tr')
    (he : q'.endname = q.endname) (hi : q'.info = q.info) : Linked tr' c q' := by
  obtain ⟨x, n, p, hx, hlink⟩ := h
  exact ⟨x, n, p, htr hx, by rwa [he, hi]⟩

/-- A call comes to its server in `readEndnameInfo` only. -/
lemma ReqStep.hasServer (hst : ReqStep rn q b q') (hok : RequestOk q) (h : q'.hasServer) :
    q.hasServer ∧ q'.info = q.info ∨ b = .readEndnameInfo ∧ ∃ n p, rn.enabled q.endname ∧
      rn.connections q.endname = some n ∧ rn.servers n = some p ∧
      q'.info.servername = some n ∧ q'.info.server = some p := by
  cases hst with
  | accept hc =>
      have hnone := (hok.early (by rw [hok.sending hc]; rfl)).1
      rcases h with h | h
      · cases h
      · exact absurd hnone h
  | @link n p hpc he hn hp =>
      refine Or.inr ⟨rfl, n, p, he, hn, hp, hn, ?_⟩
      change (rn.connections q.endname).bind rn.servers = some p
      rw [hn, Option.bind_some, hp]
  | noLink hpc =>
      have hnone := (hok.early (by rw [hpc]; rfl)).1
      rcases h with h | h
      · cases h
      · exact absurd hnone h
  | spawn hpc hp => exact Or.inl ⟨Or.inl hpc, rfl⟩
  | dispatch hh => exact Or.inl ⟨Or.inr (by simp [hh]), rfl⟩
  | complete hh => exact Or.inl ⟨Or.inr (by simp [hh]), rfl⟩
  | receive hpc hh => exact Or.inl ⟨Or.inr (by simp [hh]), rfl⟩
  | drain hh => exact Or.inl ⟨Or.inr (by simp [hh]), rfl⟩
  | giveUp hc => exact Or.inl ⟨h, rfl⟩
  | pollAlive hpc => exact Or.inl ⟨h, rfl⟩
  | fire hk => exact Or.inl ⟨h, rfl⟩
  | wake hmem => exact Or.inl ⟨h, rfl⟩
  | _ =>
      rcases h with h | h
      · cases h
      · exact Or.inl ⟨Or.inr h, rfl⟩

/-! ## Positive answers -/

/-- `processReq` is going to send the reply of the handler, or it is on its way. -/
def Request.positive (q : Request E N P B) : Prop :=
  q.pc = .answering ∧ q.reply.isSome ∧ q.serverDead = false ∨ ∃ msg ∈ q.sent ++ q.timers, msg.ok

/-- The last look at the server came after the return of the handler, and found the server in its
place. -/
def Acked (tr : Trace E N P B) (c : ℕ) (q : Request E N P B) : Prop :=
  ∃ (tr₁ tr₂ : Trace E N P B) (z : Network E N P B), tr = tr₁ ++ (z, .req c .recheck) :: tr₂ ∧
    (∃ y r, (y, .req c (.complete r)) ∈ tr₂) ∧ (∀ y r, (y, .req c (.complete r)) ∉ tr₁) ∧
    z.isServerDead q.endname q.info.servername q.info.server = false

/-- An acknowledged call stays one unless the handler returns again. -/
lemma Acked.cons {tr : Trace E N P B} {c : ℕ} (h : Acked tr c q) {x : Network E N P B}
    {a : Action E N P B} (ha : ∀ r, a ≠ .req c (.complete r)) (he : q'.endname = q.endname)
    (hi : q'.info = q.info) : Acked ((x, a) :: tr) c q' := by
  obtain ⟨tr₁, tr₂, z, rfl, hcomplete, hlast, halive⟩ := h
  refine ⟨(x, a) :: tr₁, tr₂, z, rfl, hcomplete, fun y r hmem => ?_, by rwa [he, hi]⟩
  rcases List.mem_cons.mp hmem with heq | hmem
  · exact ha r (Prod.mk.inj heq).2.symm
  · exact hlast y r hmem

omit [DecidableEq P] in
/-- A positive answer has a reply behind it. -/
lemma RequestOk.reply_of_positive (h : RequestOk q) (hq : q.positive) : q.reply.isSome := by
  rcases hq with ⟨-, hr, -⟩ | ⟨msg, hmem, hok⟩
  · exact hr
  · exact h.positive msg hmem hok

section NoNetwork

omit [DecidableEq P]

/-- A message that is sent is positive only if it is ok. -/
lemma Request.positive_send {msg : ReplyMsg B} (h : (q.send msg).positive) :
    msg.ok ∨ q.positive := by
  rcases h with ⟨hpc, -⟩ | ⟨m, hm, hok⟩
  · cases hpc
  · rcases Request.mem_send hm with hm | rfl
    · exact Or.inr (Or.inr ⟨m, hm, hok⟩)
    · exact Or.inl hok

/-- A message that is left to a timer is positive only if it is ok. -/
lemma Request.positive_delay {msg : ReplyMsg B} (h : (q.delay msg).positive) :
    msg.ok ∨ q.positive := by
  rcases h with ⟨hpc, -⟩ | ⟨m, hm, hok⟩
  · cases hpc
  · rcases Request.mem_delay hm with hm | rfl
    · exact Or.inr (Or.inr ⟨m, hm, hok⟩)
    · exact Or.inl hok

/-- Where `processReq` does not answer next, only what is on its way counts. -/
lemma Request.positive.of_messages (h : q'.positive) (hs : q'.sent = q.sent)
    (ht : q'.timers = q.timers) (hpc : q'.pc ≠ .answering) : q.positive := by
  rcases h with ⟨hans, -⟩ | hmsg
  · exact absurd hans hpc
  · exact Or.inr (by rwa [hs, ht] at hmsg)

end NoNetwork

/-- An answer becomes positive in the last look at the server only. -/
lemma ReqStep.positive (hst : ReqStep rn q b q') (h : q'.positive) :
    q.positive ∨ b = .recheck ∧ q.reply.isSome ∧
      rn.isServerDead q.endname q.info.servername q.info.server = false := by
  have hfailed : ¬ (ReplyMsg.failed : ReplyMsg B).ok := by simp [ReplyMsg.failed]
  cases hst with
  | accept hc => exact Or.inl (h.of_messages rfl rfl (by simp))
  | link hpc he hn hp => exact Or.inl (h.of_messages rfl rfl (by simp))
  | noLink hpc =>
      have hold := (Request.positive_delay h).resolve_left hfailed
      exact Or.inl (hold.of_messages rfl rfl (by simp [hpc]))
  | dropRequest hpc => exact Or.inl ((Request.positive_send h).resolve_left hfailed)
  | spawn hpc hp => exact Or.inl (h.of_messages rfl rfl (by simp))
  | receive hpc hh => exact Or.inl (h.of_messages rfl rfl (by simp))
  | pollDead hpc => exact Or.inl (h.of_messages rfl rfl (by simp))
  | pollAlive hpc => exact Or.inl (h.of_messages rfl rfl (by simp [hpc]))
  | recheck hpc =>
      rcases h with ⟨-, hr, hd⟩ | hmsg
      · exact Or.inr ⟨rfl, hr, hd⟩
      · exact Or.inl (Or.inr hmsg)
  | answerFailed hpc => exact Or.inl ((Request.positive_send h).resolve_left hfailed)
  | answerLate hpc hr hd => exact Or.inl (Or.inl ⟨hpc, by simp [hr], hd⟩)
  | answer hpc hr hd => exact Or.inl (Or.inl ⟨hpc, by simp [hr], hd⟩)
  | @fire k msg hk =>
      rcases h with hans | ⟨m, hm, hok⟩
      · exact Or.inl (Or.inl hans)
      · exact Or.inl (Or.inr ⟨m, Request.mem_fire hk hm, hok⟩)
  | _ => exact Or.inl h

/-! ## Counting dispatches -/

/-- The step is the dispatch of the handler of call `c`. -/
def dispatches (c : ℕ) (s : Network E N P B × Action E N P B) : Bool :=
  match s.2 with
  | .req c' .dispatch => c' = c
  | _ => false

omit [DecidableEq P] in
/-- The step that dispatches the handler of a call. -/
lemma dispatches_iff {c : ℕ} {x : Network E N P B} {a : Action E N P B} :
    dispatches c (x, a) ↔ a = .req c .dispatch := by
  unfold dispatches
  dsimp only
  split
  · simp
  · rename_i hne
    exact ⟨fun h => (by cases h), fun h => absurd h (hne c)⟩

/-- How often the handler may still be dispatched. -/
def Request.toDispatch (q : Request E N P B) : ℕ :=
  match q.handler with
  | .none => if q.pc.early then 1 else 0
  | .spawned _ => 1
  | _ => 0

/-- No other step lets the handler be dispatched once more. -/
lemma ReqStep.toDispatch (hst : ReqStep rn q b q') (hok : RequestOk q) (hb : b ≠ .dispatch) :
    q'.toDispatch ≤ q.toDispatch := by
  unfold Request.toDispatch
  cases hst with
  | accept hc => simp [hok.sending hc, ReqPc.early]
  | link hpc he hn hp => simp [hpc, ReqPc.early]
  | noLink hpc =>
      obtain ⟨hnone, -⟩ := hok.early (by rw [hpc]; rfl)
      simp [hnone, ReqPc.early, Request.delay]
  | dropRequest hpc =>
      obtain ⟨hnone, -⟩ := hok.early (by rw [hpc]; rfl)
      simp [hnone, ReqPc.early, Request.send]
  | spawn hpc hp =>
      obtain ⟨hnone, -⟩ := hok.early (by rw [hpc]; rfl)
      simp [hpc, hnone, ReqPc.early]
  | dispatch hh => exact absurd rfl hb
  | complete hh => simp [hh]
  | receive hpc hh => simp [hh]
  | pollDead hpc => simp [hpc, ReqPc.early]
  | drain hh => simp [hh]
  | recheck hpc => simp [hpc, ReqPc.early]
  | answerFailed hpc => simp [hpc, ReqPc.early, Request.send]
  | answerLate hpc hr hd => simp [hpc, ReqPc.early, Request.delay]
  | answer hpc hr hd => simp [hpc, ReqPc.early, Request.send]
  | _ => exact le_refl _

/-- A dispatch uses up the one that was allowed. -/
lemma ReqStep.toDispatch_dispatch (hst : ReqStep rn q .dispatch q') :
    q'.toDispatch + 1 = q.toDispatch := by
  unfold Request.toDispatch
  cases hst with
  | dispatch hh => simp [hh]

/-- A reply comes from a handler that has returned. -/
lemma ReqStep.completed (hst : ReqStep rn q b q')
    (h : (∃ r, q'.handler = .returned r) ∨ q'.reply.isSome) :
    ((∃ r, q.handler = .returned r) ∨ q.reply.isSome) ∨ ∃ r, b = .complete r := by
  cases hst with
  | spawn hpc hp =>
      rcases h with ⟨r, hr⟩ | hr
      · cases hr
      · exact Or.inl (Or.inr hr)
  | dispatch hh =>
      rcases h with ⟨r, hr⟩ | hr
      · cases hr
      · exact Or.inl (Or.inr hr)
  | @complete p r hh => exact Or.inr ⟨r, rfl⟩
  | @receive r hpc hh => exact Or.inl (Or.inl ⟨r, hh⟩)
  | drain hh =>
      rcases h with ⟨r, hr⟩ | hr
      · cases hr
      · exact Or.inl (Or.inr hr)
  | _ => exact Or.inl h

/-! ## Calls in every run -/

section Runs

variable [DecidableEq E] [DecidableEq N] {tr : Trace E N P B} {st : Network E N P B} {c : ℕ}

/-- The invariant holds of every call of a run. -/
lemma requestOk_of_run (h : (network E N P B).Run tr st) (hq : st.calls[c]? = some q) :
    RequestOk q :=
  request_induction (M := fun _ q => RequestOk q) (fun _ _ => requestOk_new _)
    (fun _ _ _ hok => hok) (fun _ _ hok hstep => hstep.requestOk hok) h hq

/-- **The server of a call was looked up during the call.** -/
lemma linked_of_run (h : (network E N P B).Run tr st) (hq : st.calls[c]? = some q) :
    q.hasServer → Linked tr c q := by
  refine request_induction (M := fun tr q => q.hasServer → Linked tr c q) ?_ ?_ ?_ h hq
  · intro tr x e _ _ hserver
    rcases hserver with hpc | hhandler
    · cases hpc
    · exact absurd rfl hhandler
  · intro tr x a q _ _ _ ih hserver
    exact (ih hserver).mono (List.subset_cons_self _ _) rfl rfl
  · intro tr x b q q' hrun hx ih hstep hserver
    rcases hstep.hasServer (requestOk_of_run hrun hx) hserver with
      ⟨hold, hinfo⟩ | ⟨rfl, n, p, he, hn, hp, hname, hserver⟩
    · exact (ih hold).mono (List.subset_cons_self _ _) hstep.endname hinfo
    · rw [← hstep.endname] at he hn
      exact ⟨x, n, p, List.mem_cons_self, he, hn, hp, hname, hserver⟩

/-- **The handler is dispatched at most once.** -/
lemma dispatches_of_run (h : (network E N P B).Run tr st) (hq : st.calls[c]? = some q) :
    tr.countP (dispatches c) + q.toDispatch ≤ 1 := by
  refine request_induction (M := fun tr q => tr.countP (dispatches c) + q.toDispatch ≤ 1)
    ?_ ?_ ?_ h hq
  · intro tr x e hrun hlen
    have hnone : tr.countP (dispatches c) = 0 := by
      rw [List.countP_eq_zero]
      rintro ⟨y, a⟩ hy hd
      have ha := dispatches_iff.mp hd
      subst ha
      exact absurd (lt_length_of_mem hrun hy) (by omega)
    rw [List.countP_cons_of_neg (by simp [dispatches_iff]), hnone]
    exact le_refl 1
  · intro tr x a q _ _ ha ih
    rwa [List.countP_cons_of_neg fun hd => ha _ (dispatches_iff.mp hd)]
  · intro tr x b q q' hrun hx ih hstep
    by_cases hb : b = .dispatch
    · subst hb
      rw [List.countP_cons_of_pos (dispatches_iff.mpr rfl)]
      have hone := hstep.toDispatch_dispatch
      omega
    · have hle := hstep.toDispatch (requestOk_of_run hrun hx) hb
      rw [List.countP_cons_of_neg fun hd => hb (by simpa using dispatches_iff.mp hd)]
      omega

/-- What `processReq` got from the handler, or can get, the handler has returned. -/
lemma completed_of_run (h : (network E N P B).Run tr st) (hq : st.calls[c]? = some q) :
    (∃ r, q.handler = .returned r) ∨ q.reply.isSome →
      ∃ y r, (y, .req c (.complete r)) ∈ tr := by
  refine request_induction (M := fun tr q => (∃ r, q.handler = .returned r) ∨ q.reply.isSome →
    ∃ y r, (y, .req c (.complete r)) ∈ tr) ?_ ?_ ?_ h hq
  · rintro tr x e _ _ (⟨r, hr⟩ | hr)
    · cases hr
    · cases hr
  · intro tr x a q _ _ _ ih hr
    obtain ⟨y, r, hy⟩ := ih hr
    exact ⟨y, r, List.mem_cons_of_mem _ hy⟩
  · intro tr x b q q' hrun hx ih hstep hr
    rcases hstep.completed hr with hold | ⟨r, rfl⟩
    · obtain ⟨y, r, hy⟩ := ih hold
      exact ⟨y, r, List.mem_cons_of_mem _ hy⟩
    · exact ⟨x, r, List.mem_cons_self⟩

/-- **Every positive answer has passed the last look at the server.** -/
lemma acked_of_run (h : (network E N P B).Run tr st) (hq : st.calls[c]? = some q) :
    q.positive → Acked tr c q := by
  refine request_induction (M := fun tr q => q.positive → Acked tr c q) ?_ ?_ ?_ h hq
  · rintro tr x e _ _ (⟨hpc, -⟩ | ⟨msg, hmem, -⟩)
    · cases hpc
    · cases hmem
  · intro tr x a q _ _ ha ih hpos
    exact (ih hpos).cons (fun r => ha _) rfl rfl
  · intro tr x b q q' hrun hx ih hstep hpos
    have hok := requestOk_of_run hrun hx
    rcases hstep.positive hpos with hold | ⟨rfl, hr, halive⟩
    · have hr := hok.reply_of_positive hold
      refine (ih hold).cons (fun r heq => ?_) hstep.endname (hstep.info (hok.late_of_reply hr))
      -- the handler is gone and does not return once more
      cases heq
      cases hstep with
      | complete hh =>
          rw [hok.reply hr] at hh
          cases hh
    · refine ⟨[], tr, x, rfl, completed_of_run hrun hx (Or.inr hr), by simp, ?_⟩
      rw [hstep.endname, hstep.info (hok.late_of_reply hr)]
      exact halive

/-- A server that is not registered under a name is not, until it is added again. -/
lemma servers_ne_of_run {tr₁ tr₂ : Trace E N P B} {y : Network E N P B} {a : Action E N P B}
    {n : N} {p : P} (h : (network E N P B).Run (tr₁ ++ (y, a) :: tr₂) st)
    (hy : y.servers n ≠ some p) (ha : a ≠ .addServer n p)
    (hadd : ∀ x, (x, .addServer n p) ∉ tr₁) : st.servers n ≠ some p := by
  induction tr₁ generalizing st with
  | nil =>
      cases h with
      | step _ hs => exact (NetworkStep.of_step hs).servers_ne hy ha
  | cons s tr₁ ih =>
      cases h with
      | @step _ x _ a' h hs =>
          refine (NetworkStep.of_step hs).servers_ne ?_ fun heq => ?_
          · exact ih h fun x hx => hadd x (List.mem_cons_of_mem _ hx)
          · exact hadd x (heq ▸ List.mem_cons_self)

/-- In `y` the goroutine of the handler of call `c` calls `dispatch` of the server `p` next. -/
def Network.dispatchesOn (y : Network E N P B) (c : ℕ) (p : P) : Prop :=
  ∃ q, y.calls[c]? = some q ∧ q.handler = .spawned p

/-- **The handler is dispatched on the server of the call**, which was looked up before. -/
lemma dispatchesOn_of_run (h : (network E N P B).Run tr st) (hq : st.calls[c]? = some q) :
    ∀ (tr₁ tr₂ : Trace E N P B) y, tr = tr₁ ++ (y, .req c .dispatch) :: tr₂ →
      Linked tr₂ c q ∧ ∃ p, q.info.server = some p ∧ y.dispatchesOn c p := by
  refine request_induction (M := fun tr q => ∀ (tr₁ tr₂ : Trace E N P B) y,
    tr = tr₁ ++ (y, .req c .dispatch) :: tr₂ →
      Linked tr₂ c q ∧ ∃ p, q.info.server = some p ∧ y.dispatchesOn c p) ?_ ?_ ?_ h hq
  · intro tr x e hrun hlen tr₁ tr₂ y htr
    have hmem : (y, .req c .dispatch) ∈ (x, Action.call e) :: tr := by simp [htr]
    rcases List.mem_cons.mp hmem with heq | hmem
    · cases heq
    · exact absurd (lt_length_of_mem hrun hmem) (by omega)
  · intro tr x a q _ _ ha ih tr₁ tr₂ y htr
    cases tr₁ with
    | nil =>
        cases htr
        exact absurd rfl (ha .dispatch)
    | cons s tr₁ =>
        cases htr
        exact ih tr₁ tr₂ y rfl
  · intro tr x b q q' hrun hx ih hstep tr₁ tr₂ y htr
    have hok := requestOk_of_run hrun hx
    cases tr₁ with
    | nil =>
        cases htr
        cases hstep with
        | @dispatch p hh =>
            have hlinked := linked_of_run hrun hx (Or.inr (by simp [hh]))
            exact ⟨hlinked, p, hok.server p (Or.inl hh), q, hx, hh⟩
    | cons s tr₁ =>
        obtain ⟨-, htail⟩ := List.cons.inj htr
        obtain ⟨hlinked, p, hp, hon⟩ := ih tr₁ tr₂ y htail
        -- the server has been looked up, as there was a dispatch
        have hlate : ¬ q.pc.early := by
          intro he
          have hle := dispatches_of_run hrun hx
          have hone : q.toDispatch = 1 := by simp [Request.toDispatch, (hok.early he).1, he]
          have hmem : (y, .req c .dispatch) ∈ tr := by
            rw [htail]
            exact List.mem_append_right _ List.mem_cons_self
          have hpos := List.countP_pos_iff.mpr ⟨_, hmem, dispatches_iff.mpr rfl⟩
          omega
        have hinfo := hstep.info hlate
        exact ⟨hlinked.mono (fun _ => id) hstep.endname hinfo, p, by rw [hinfo, hp], hon⟩

omit [DecidableEq E] [DecidableEq N] in
/-- A server is alive if the end is enabled and the name stands for this server. -/
lemma Network.isServerDead_eq_false {z : Network E N P B} {e : E} {n : N} {p : P} :
    z.isServerDead e (some n) (some p) = false ↔ z.enabled e ∧ z.servers n = some p := by
  simp [Network.isServerDead]

/-- **At most once, and no answer for a dead server.** For every call of every run of the network:

1. its handler is dispatched at most once;
2. on the server `p` that `processReq` looked up, and that at an earlier moment of the call was
   registered under the name which the end was connected to, while the end was enabled;
3. at most one message is sent on its reply channel;
4. if it returns true, the handler had returned, and afterwards there was a moment at which the end
   was enabled and `p` was the server registered under that name;
5. so it does not return true if `p` was not registered under that name any more when the handler
   returned, and was not added under it again. -/
theorem atMostOnce (h : (network E N P B).Run tr st) (hq : st.calls[c]? = some q) :
    tr.countP (dispatches c) ≤ 1 ∧
    (∀ (tr₁ tr₂ : Trace E N P B) y, tr = tr₁ ++ (y, .req c .dispatch) :: tr₂ →
      Linked tr₂ c q ∧ ∃ p, q.info.server = some p ∧ y.dispatchesOn c p) ∧
    q.sent.length ≤ 1 ∧
    (q.caller = .returned true → ∃ n p, q.info.servername = some n ∧ q.info.server = some p ∧
      ∃ (tr₁ tr₂ : Trace E N P B) (z : Network E N P B), tr = tr₁ ++ (z, .req c .recheck) :: tr₂ ∧
        (∃ y r, (y, .req c (.complete r)) ∈ tr₂) ∧ z.enabled q.endname ∧ z.servers n = some p) ∧
    ∀ n p (tr₁ tr₂ : Trace E N P B) (y : Network E N P B) r, q.info.servername = some n →
      q.info.server = some p → tr = tr₁ ++ (y, .req c (.complete r)) :: tr₂ → y.servers n ≠ some p →
      (∀ x, (x, .addServer n p) ∉ tr₁) → q.caller ≠ .returned true := by
  have hok := requestOk_of_run h hq
  have hpositive : q.caller = .returned true → q.positive := by
    intro hc
    obtain ⟨msg, hmem, hmsg⟩ := hok.returned hc
    exact Or.inr ⟨msg, List.mem_append_left _ hmem, hmsg⟩
  refine ⟨?_, dispatchesOn_of_run h hq, ?_, fun hc => ?_, ?_⟩
  · exact le_trans (Nat.le_add_right _ _) (dispatches_of_run h hq)
  · have hsends := hok.sends
    omega
  · have hpos := hpositive hc
    have hgone := hok.reply (hok.reply_of_positive hpos)
    obtain ⟨-, n, p, -, -, -, -, hn, hp⟩ := linked_of_run h hq (Or.inr (by simp [hgone]))
    obtain ⟨tr₁, tr₂, z, htr, hcomplete, -, halive⟩ := acked_of_run h hq hpos
    rw [hn, hp, Network.isServerDead_eq_false] at halive
    exact ⟨n, p, hn, hp, tr₁, tr₂, z, htr, hcomplete, halive⟩
  · intro n p tr₁ tr₂ y r hn hp htr hy hadd hc
    obtain ⟨tr₁', tr₂', z, htr', -, hlast, halive⟩ := acked_of_run h hq (hpositive hc)
    rw [hn, hp, Network.isServerDead_eq_false] at halive
    -- the last look came after the return of the handler
    rcases List.append_eq_append_iff.mp (htr.symm.trans htr') with ⟨l, hl, heq⟩ | ⟨l, hl, heq⟩
    · cases l with
      | nil => cases heq
      | cons s l =>
          obtain ⟨rfl, -⟩ := List.cons.inj heq
          exact hlast y r (by simp [hl])
    · cases l with
      | nil => cases heq
      | cons s l =>
          obtain ⟨rfl, rfl⟩ := List.cons.inj heq
          obtain ⟨x, hx⟩ := (htr' ▸ h).of_append
          cases hx with
          | step hz _ =>
              refine servers_ne_of_run hz hy (by simp) (fun x hmem => hadd x ?_) halive.2
              simp [hl, hmem]

end Runs

/-- The server is deleted while the handler runs, and added again before the last look at it: the
call returns true. -/
theorem atMostOnce_run : ∃ tr st q, (network (Fin 1) (Fin 1) (Fin 1) Unit).Run tr st ∧
    st.calls[0]? = some q ∧ q.caller = .returned true ∧ tr.countP (dispatches 0) ≤ 1 ∧
    q.sent.length ≤ 1 ∧ q.info.server = some 0 ∧
    ∃ (tr₂ : Trace (Fin 1) (Fin 1) (Fin 1) Unit) (z : Network (Fin 1) (Fin 1) (Fin 1) Unit),
      (z, .req 0 .recheck) :: tr₂ <:+ tr ∧ (∃ y r, (y, .req 0 (.complete r)) ∈ tr₂) ∧
      z.enabled q.endname ∧ z.servers 0 = some 0 := by
  obtain ⟨tr, st, h, hany⟩ := (network (Fin 1) (Fin 1) (Fin 1) Unit).exists_run_of_exec
    (List.flatten [[.makeEnd 0, .addServer 0 0, .connect 0 (some 0), .enable 0 true, .call 0],
      [.req 0 .accept, .req 0 .readEndnameInfo, .req 0 (.request false), .req 0 .poll],
      [.req 0 .dispatch, .deleteServer 0, .req 0 (.complete ()), .req 0 .receive],
      [.addServer 0 0, .req 0 .recheck, .req 0 (.answer false false), .req 0 .wake]])
    (fun _ st => (st.calls[0]?).any fun q => q.caller = .returned true) (by decide)
  obtain ⟨q, hq, hc⟩ := (Option.any_eq_true _ _).mp hany
  have hcaller : q.caller = .returned true := by simpa using hc
  obtain ⟨honce, -, hsent, htrue, -⟩ := atMostOnce h hq
  obtain ⟨n, p, -, hp, tr₁, tr₂, z, htr, hcomplete, he, hserver⟩ := htrue hcaller
  obtain rfl := Subsingleton.elim p 0
  obtain rfl := Subsingleton.elim n 0
  exact ⟨tr, st, q, h, hq, hcaller, honce, hsent, hp, tr₂, z, ⟨tr₁, htr.symm⟩, hcomplete, he,
    hserver⟩

end GoLabs.Labrpc
