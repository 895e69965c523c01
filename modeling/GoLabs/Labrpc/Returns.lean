import GoLabs.Labrpc.Calls
import GoLabs.Lib.Possible

/-!
# Calls return

`atMostOnce` is about what a call may not do. Here is what it does: from every state of a run a call
can return by the steps of its own goroutines (`call_returns`), whatever the tester has done to the
network. `Call` and `processReq` wait in several places, and `Live` says that somebody is there for
what they wait for.

The handler is a part of this as long as its server is there. When the server has been deleted or
the end disabled, the loop of `processReq` finds that out when it polls, and the call returns false
without the handler.
-/

namespace GoLabs.Labrpc

open GoLabs.Lib

variable {E N P B : Type} [DecidableEq P] {rn : Network E N P B} {q q' : Request E N P B}
  {b : ReqAction B}

/-! ## A call is never stuck -/

/-- The loop that waits for the handler is over. -/
def ReqPc.late : ReqPc → Bool
  | checking | answering | done => true
  | _ => false

/-- Somebody is there for whatever `processReq` and `Call` wait for. -/
structure Live (q : Request E N P B) : Prop where
  unsent : q.pc = .unsent → q.caller ≠ .waiting
  connected : q.pc = .connected → q.info.server.isSome
  waiting : q.pc = .waiting → q.handler ≠ .none ∧ q.handler ≠ .gone
  /-- `ech` is drained only when nobody else waits for the handler. -/
  draining : q.draining = true → q.pc.late
  done : q.pc = .done → q.sent ≠ [] ∨ q.timers ≠ []

section NoNetwork

omit [DecidableEq P]

/-- A new call is not stuck. -/
lemma live_new (e : E) : Live (Request.new e : Request E N P B) where
  unsent _ h := by cases h
  connected h := by cases h
  waiting h := by cases h
  draining h := by cases h
  done h := by cases h

/-- A call whose handler is no longer waited for is not stuck, as long as it leaves a message. -/
lemma Live.of_late (hlate : q.pc.late) (hdone : q.pc = .done → q.sent ≠ [] ∨ q.timers ≠ []) :
    Live q where
  unsent h := by rw [h] at hlate; cases hlate
  connected h := by rw [h] at hlate; cases hlate
  waiting h := by rw [h] at hlate; cases hlate
  draining _ := hlate
  done := hdone

/-- A call that has sent its message is not stuck. -/
lemma live_send (msg : ReplyMsg B) : Live (q.send msg) :=
  .of_late rfl fun _ => Or.inl (by simp [Request.send])

/-- A call that has left its message to a timer is not stuck. -/
lemma live_delay (msg : ReplyMsg B) : Live (q.delay msg) :=
  .of_late rfl fun _ => Or.inr (by simp [Request.delay])

/-- The handler moves on, and has not handed over its reply. -/
lemma Live.moveHandler (h : Live q) {handler : HandlerPc P B}
    (hh : handler ≠ .none ∧ handler ≠ .gone) : Live { q with handler := handler } :=
  { h with waiting := fun _ => hh }

/-- Nobody drains `ech` before the loop is over. -/
lemma Live.not_draining (h : Live q) (hpc : q.pc.late = false) : q.draining ≠ true := by
  intro hd
  rw [h.draining hd] at hpc
  cases hpc

end NoNetwork

/-- **One step of a call keeps it live.** -/
lemma Live.step (h : Live q) (hok : RequestOk q) (hs : q.step rn b = some q') : Live q' := by
  cases ReqStep.of_step hs with
  | accept hc =>
      have hpc := hok.sending hc
      exact ⟨fun h => (by cases h), fun h => (by cases h), fun h => (by cases h),
        fun hd => absurd hd (h.not_draining (by rw [hpc]; rfl)), fun h => (by cases h)⟩
  | giveUp hc => exact { h with unsent := fun _ h => (by cases h) }
  | link hpc he hn hp =>
      refine ⟨fun h => (by cases h), fun _ => ?_, fun h => (by cases h),
        fun hd => absurd hd (h.not_draining (by rw [hpc]; rfl)), fun h => (by cases h)⟩
      simp [Network.readEndnameInfo, hn, hp]
  | noLink hpc => exact live_delay _
  | dropRequest hpc => exact live_send _
  | spawn hpc hp =>
      exact ⟨fun h => (by cases h), fun h => (by cases h), fun _ => ⟨by simp, by simp⟩,
        fun hd => absurd hd (h.not_draining (by rw [hpc]; rfl)), fun h => (by cases h)⟩
  | dispatch hh => exact h.moveHandler ⟨by simp, by simp⟩
  | complete hh => exact h.moveHandler ⟨by simp, by simp⟩
  | receive hpc hh => exact .of_late rfl fun h => (by cases h)
  | pollDead hpc => exact .of_late rfl fun h => (by cases h)
  | pollAlive hpc => exact { h with }
  | drain hh =>
      -- the goroutine that drains is started at the end of the loop
      have hd : q.draining = true := by
        by_contra hd
        rw [Bool.not_eq_true] at hd
        simp [Request.step, hd] at hs
      exact .of_late (h.draining hd) h.done
  | recheck hpc => exact .of_late rfl fun h => (by cases h)
  | answerFailed hpc => exact live_send _
  | answerLate hpc hr hd => exact live_delay _
  | answer hpc hr hd => exact live_send _
  | fire hk => exact { h with done := fun _ => Or.inl (by simp) }
  | wake hmem => exact { h with unsent := fun _ h => (by cases h) }

/-! ## The next step -/

/-- A step of the goroutine that calls the handler. -/
def ReqAction.ofHandler : ReqAction B → Bool
  | dispatch => true
  | complete _ => true
  | _ => false

/-- How far the handler has to go. -/
def HandlerPc.left : HandlerPc P B → ℕ
  | spawned _ => 2
  | running _ => 1
  | _ => 0

/-- How far a call has to go, at most. -/
def Request.left (q : Request E N P B) : ℕ :=
  match q.pc with
  | .unsent => 9
  | .start => 8
  | .connected => 7
  | .waiting => 4 + q.handler.left
  | .checking => 3
  | .answering => 2
  | .done => if q.sent = [] then 1 else 0

omit [DecidableEq P] in
/-- A call that has left its message to a timer is almost at its end. -/
lemma Request.left_delay (msg : ReplyMsg B) : (q.delay msg).left ≤ 1 := by
  show (if q.sent = [] then 1 else 0) ≤ 1
  split_ifs
  · exact le_refl 1
  · exact Nat.zero_le 1

omit [DecidableEq P] in
/-- A call that has answered is almost at its end. -/
lemma Request.left_answer (drop late : Bool) : (q.answer drop late).left ≤ 1 := by
  have hsend : ∀ msg, (q.send msg).left ≤ 1 := fun msg => by simp [left, send]
  have hdelay : ∀ msg, (q.delay msg).left ≤ 1 := left_delay
  unfold answer
  split
  · exact hsend _
  · split_ifs
    · exact hsend _
    · exact hsend _
    · exact hdelay _
    · exact hsend _

omit [DecidableEq P] in
/-- The answer does not move the caller yet. -/
lemma Request.caller_answer (drop late : Bool) : (q.answer drop late).caller = q.caller := by
  unfold answer
  split
  · rfl
  · split_ifs <;> rfl

/-- **A call that waits can go on**, and comes closer to its end. The handler is not needed where
the server is gone. -/
lemma Live.exists_step [Nonempty B] (h : Live q) (rn : Network E N P B) (hc : q.caller = .waiting) :
    ∃ b q', q.step rn b = some q' ∧
      (b.ofHandler → rn.isServerDead q.endname q.info.servername q.info.server = false) ∧
      ((∃ ok, q'.caller = .returned ok) ∨ q'.caller = .waiting ∧ q'.left < q.left) := by
  obtain ⟨r⟩ := ‹Nonempty B›
  cases hpc : q.pc with
  | unsent => exact absurd hc (h.unsent hpc)
  | start =>
      by_cases hinfo : (rn.readEndnameInfo q.endname).enabled ∧
          (rn.readEndnameInfo q.endname).servername.isSome ∧
          (rn.readEndnameInfo q.endname).server.isSome
      · refine ⟨.readEndnameInfo,
          { q with pc := .connected, info := rn.readEndnameInfo q.endname }, ?_,
          fun h => (by cases h), Or.inr ⟨hc, ?_⟩⟩
        · rw [Request.step, if_pos hpc, if_pos hinfo]
        · simp [Request.left, hpc]
      · refine ⟨.readEndnameInfo,
          Request.delay { q with info := rn.readEndnameInfo q.endname } .failed, ?_,
          fun h => (by cases h), Or.inr ⟨hc, lt_of_le_of_lt (Request.left_delay _) ?_⟩⟩
        · rw [Request.step, if_pos hpc, if_neg hinfo]
        · simp [Request.left, hpc]
  | connected =>
      obtain ⟨p, hp⟩ := Option.isSome_iff_exists.mp (h.connected hpc)
      refine ⟨.request false, { q with pc := .waiting, handler := .spawned p },
        by simp [Request.step, hpc, hp], fun h => (by cases h), Or.inr ⟨hc, ?_⟩⟩
      simp [Request.left, HandlerPc.left, hpc]
  | waiting =>
      by_cases hdead : rn.isServerDead q.endname q.info.servername q.info.server = true
      · refine ⟨.poll, { q with pc := .checking, serverDead := true, draining := true }, ?_,
          fun h => (by cases h), Or.inr ⟨hc, ?_⟩⟩
        · rw [Request.step, if_pos hpc, if_pos hdead]
        · simp only [Request.left, hpc]
          omega
      · rw [Bool.not_eq_true] at hdead
        cases hh : q.handler with
        | none => exact absurd hh (h.waiting hpc).1
        | gone => exact absurd hh (h.waiting hpc).2
        | spawned p =>
            refine ⟨.dispatch, { q with handler := .running p }, by simp [Request.step, hh],
              fun _ => hdead, Or.inr ⟨hc, ?_⟩⟩
            simp [Request.left, HandlerPc.left, hpc, hh]
        | running p =>
            refine ⟨.complete r, { q with handler := .returned ⟨true, some r⟩ },
              by simp [Request.step, hh], fun _ => hdead, Or.inr ⟨hc, ?_⟩⟩
            simp [Request.left, HandlerPc.left, hpc, hh]
        | returned msg =>
            refine ⟨.receive, { q with pc := .checking, reply := some msg, handler := .gone },
              by simp [Request.step, hpc, hh], fun h => (by cases h), Or.inr ⟨hc, ?_⟩⟩
            simp [Request.left, HandlerPc.left, hpc, hh]
  | checking =>
      refine ⟨.recheck, _, if_pos hpc, fun h => (by cases h), Or.inr ⟨hc, ?_⟩⟩
      simp [Request.left, hpc]
  | answering =>
      refine ⟨.answer false false, q.answer false false, by simp [Request.step, hpc],
        fun h => (by cases h), Or.inr ⟨(Request.caller_answer _ _).trans hc, ?_⟩⟩
      have hleft := Request.left_answer (q := q) false false
      have hq : q.left = 2 := by simp [Request.left, hpc]
      omega
  | done =>
      cases hsent : q.sent with
      | nil =>
          obtain ⟨msg, timers, htimers⟩ :=
            List.exists_cons_of_ne_nil ((h.done hpc).resolve_left (by simp [hsent]))
          refine ⟨.fire 0, { q with timers := q.timers.eraseIdx 0, sent := q.sent ++ [msg] },
            by simp [Request.step, htimers], fun h => (by cases h), Or.inr ⟨hc, ?_⟩⟩
          simp [Request.left, hpc, hsent]
      | cons rep rest =>
          exact ⟨.wake, { q with caller := .returned rep.ok }, by simp [Request.step, hc, hsent],
            fun h => (by cases h), Or.inl ⟨rep.ok, rfl⟩⟩

/-! ## Runs -/

section Runs

variable [DecidableEq E] [DecidableEq N] {tr : Trace E N P B} {st : Network E N P B} {c : ℕ}

/-- The step is not one of the goroutines of the call `c`, or it is one of a handler whose server is
gone. -/
def outside (c : ℕ) (rn : Network E N P B) (a : Action E N P B) : Prop :=
  ∀ b q, a = .req c b → rn.calls[c]? = some q →
    b.ofHandler ∧ rn.isServerDead q.endname q.info.servername q.info.server

/-- No call of a run is stuck. -/
lemma live_of_run (h : (network E N P B).Run tr st) (hq : st.calls[c]? = some q) : Live q := by
  induction h generalizing q with
  | init => cases hq
  | @step tr x y a h hs ih =>
      cases (NetworkStep.of_step hs).callStep hq with
      | same hq ha => exact ih hq
      | new hlen ha => exact live_new _
      | own hq₀ ha _ =>
          subst ha
          obtain ⟨q₁, hq₁, hmap⟩ := Option.bind_eq_some_iff.mp hs
          obtain ⟨q₂, hstep, rfl⟩ := Option.map_eq_some_iff.mp hmap
          rw [List.getElem?_set_self (List.getElem?_eq_some_iff.mp hq₁).1] at hq
          cases hq
          exact (ih hq₁).step (requestOk_of_run h hq₁) hstep

/-- The loop of the network runs until the network is cleaned up. -/
lemma serving_or_done (h : (network E N P B).Run tr st) : st.serving ∨ st.done := by
  induction h with
  | init => exact Or.inl rfl
  | @step tr x y a h hs ih =>
      change x.step a = some y at hs
      cases a with
      | makeEnd e =>
          simp only [Network.step] at hs
          split_ifs at hs
          cases hs
          exact ih
      | cleanup =>
          simp only [Network.step] at hs
          split_ifs at hs
          cases hs
          exact Or.inr rfl
      | stop =>
          simp only [Network.step] at hs
          split_ifs at hs with hd
          cases hs
          exact Or.inr hd
      | call e =>
          simp only [Network.step] at hs
          split_ifs at hs
          cases hs
          exact ih
      | req c b =>
          obtain ⟨q, hq, hs⟩ := Option.bind_eq_some_iff.mp hs
          obtain ⟨q', hs, rfl⟩ := Option.map_eq_some_iff.mp hs
          exact ih
      | _ =>
          cases hs
          exact ih

/-- One step of a call at the front. -/
lemma possible_step {G : Network E N P B → Prop} (hq : st.calls[c]? = some q)
    (hs : q.step st b = some q')
    (hb : b.ofHandler → st.isServerDead q.endname q.info.servername q.info.server = false)
    (h : (st.calls.set c q')[c]? = some q' →
      (network E N P B).Possible (outside c) G { st with calls := st.calls.set c q' }) :
    (network E N P B).Possible (outside c) G st := by
  refine .step (a := .req c b) (y := { st with calls := st.calls.set c q' }) (fun hout => ?_) ?_
    (h (List.getElem?_set_self (List.getElem?_eq_some_iff.mp hq).1))
  · obtain ⟨hhandler, hdead⟩ := hout b q rfl hq
    rw [hb hhandler] at hdead
    cases hdead
  · show (st.calls[c]?).bind _ = _
    rw [hq, Option.bind_some, hs, Option.map_some]

/-- A call that waits can return. -/
lemma possible_return [Nonempty B] (hq : st.calls[c]? = some q) (hlive : Live q)
    (hok : RequestOk q) (hc : q.caller = .waiting) :
    (network E N P B).Possible (outside c)
      (fun y => ∃ q ok, y.calls[c]? = some q ∧ q.caller = .returned ok) st := by
  apply System.Possible.of_measure (P := fun x => ∃ q, x.calls[c]? = some q ∧ Live q ∧
    RequestOk q ∧ q.caller = .waiting) (fun x => (x.calls[c]?).elim 0 Request.left) ?_
    ⟨q, hq, hlive, hok, hc⟩
  rintro x ⟨q, hq, hlive, hok, hc⟩
  obtain ⟨b, q', hs, hb, hcases⟩ := hlive.exists_step x hc
  refine possible_step hq hs hb fun hq' => .now ?_
  rcases hcases with ⟨ok, hret⟩ | ⟨hwait, hlt⟩
  · exact Or.inl ⟨q', ok, hq', hret⟩
  · refine Or.inr ⟨⟨q', hq', hlive.step hok hs, (ReqStep.of_step hs).requestOk hok, hwait⟩, ?_⟩
    rwa [hq', hq]

/-- A call whose server is gone can fail: the loop finds out, and there is no reply. -/
lemma possible_fail (hq : st.calls[c]? = some q) (hlive : Live q) (hok : RequestOk q)
    (hc : q.caller = .waiting) (hpc : q.pc = .waiting)
    (hdead : st.isServerDead q.endname q.info.servername q.info.server) :
    (network E N P B).Possible (outside c)
      (fun y => ∃ q, y.calls[c]? = some q ∧ q.caller = .returned false) st := by
  have hreply : q.reply = none := by
    by_contra hne
    exact (hlive.waiting hpc).2 (hok.reply (Option.isSome_iff_ne_none.mpr hne))
  have hsent : q.sent = [] := by
    have hsends := hok.sends
    rw [hpc] at hsends
    change q.sent.length + q.timers.length + 1 ≤ 1 at hsends
    exact List.eq_nil_of_length_eq_zero (by omega)
  let q₁ : Request E N P B := { q with pc := .checking, serverDead := true, draining := true }
  let q₂ : Request E N P B := { q₁ with
    pc := .answering
    serverDead := st.isServerDead q.endname q.info.servername q.info.server }
  let q₃ : Request E N P B := q₂.send .failed
  have hpoll : q.step st .poll = some q₁ := by rw [Request.step, if_pos hpc, if_pos hdead]
  have hrecheck : ∀ l, q₁.step { st with calls := l } .recheck = some q₂ := fun _ => rfl
  have hanswer : ∀ l, q₂.step { st with calls := l } (.answer false false) = some q₃ := by
    intro l
    simp [Request.step, Request.answer, q₂, q₁, q₃, hreply]
  have hwake : ∀ l, q₃.step { st with calls := l } .wake =
      some { q₃ with caller := .returned false } := by
    intro l
    simp [Request.step, Request.send, q₃, q₂, q₁, hc, hsent, ReplyMsg.failed]
  refine possible_step hq hpoll (fun h => (by cases h)) fun hq₁ => ?_
  refine possible_step hq₁ (hrecheck _) (fun h => (by cases h)) fun hq₂ => ?_
  refine possible_step hq₂ (hanswer _) (fun h => (by cases h)) fun hq₃ => ?_
  exact possible_step hq₃ (hwake _) (fun h => (by cases h)) fun hq₄ => .now ⟨_, hq₄, rfl⟩

/-- **Every call can return**, from every state of a run, by the steps of its own goroutines. The
handler takes part only as long as its server is there: when the server is gone while `processReq`
waits for the handler, the call can return false. -/
theorem call_returns [Nonempty B] (h : (network E N P B).Run tr st)
    (hq : st.calls[c]? = some q) :
    (∃ tr' st' q' ok, (network E N P B).Run (tr' ++ tr) st' ∧ Avoids (outside c) tr' ∧
      st'.calls[c]? = some q' ∧ q'.caller = .returned ok) ∧
    (q.caller = .waiting → q.pc = .waiting →
      st.isServerDead q.endname q.info.servername q.info.server →
      ∃ tr' st' q', (network E N P B).Run (tr' ++ tr) st' ∧ Avoids (outside c) tr' ∧
        st'.calls[c]? = some q' ∧ q'.caller = .returned false) := by
  have hlive := live_of_run h hq
  have hok := requestOk_of_run h hq
  have hcan : (network E N P B).Possible (outside c)
      (fun y => ∃ q ok, y.calls[c]? = some q ∧ q.caller = .returned ok) st := by
    cases hc : q.caller with
    | returned ok => exact .now ⟨q, ok, hq, hc⟩
    | waiting => exact possible_return hq hlive hok hc
    | sending =>
        -- the loop of the network takes the request, or it is over and `Call` gives up
        rcases serving_or_done h with hserving | hdone
        · have hs : q.step st .accept = some { q with caller := .waiting, pc := .start } :=
            if_pos ⟨hc, hserving⟩
          refine possible_step hq hs (fun h => (by cases h)) fun hq' => ?_
          exact possible_return hq' (hlive.step hok hs) ((ReqStep.of_step hs).requestOk hok) rfl
        · have hs : q.step st .giveUp = some { q with caller := .returned false } :=
            if_pos ⟨hc, hdone⟩
          exact possible_step hq hs (fun h => (by cases h)) fun hq' => .now ⟨_, false, hq', rfl⟩
  constructor
  · obtain ⟨tr', st', hrun, hD, q', ok, hq', hret⟩ := h.continue hcan
    exact ⟨tr', st', q', ok, hrun, hD, hq', hret⟩
  · intro hc hpc hdead
    obtain ⟨tr', st', hrun, hD, q', hq', hret⟩ :=
      h.continue (possible_fail hq hlive hok hc hpc hdead)
    exact ⟨tr', st', q', hrun, hD, hq', hret⟩

end Runs

/-- The server is deleted while the handler runs. The call returns false without the handler. -/
theorem call_returns_run : ∃ tr st q tr' st' q',
    (network (Fin 1) (Fin 1) (Fin 1) Unit).Run tr st ∧ st.calls[0]? = some q ∧
    q.caller = .waiting ∧ st.servers 0 = none ∧
    (network (Fin 1) (Fin 1) (Fin 1) Unit).Run (tr' ++ tr) st' ∧ Avoids (outside 0) tr' ∧
    st'.calls[0]? = some q' ∧ q'.caller = .returned false := by
  obtain ⟨tr, st, h, hany, hserver⟩ := (network (Fin 1) (Fin 1) (Fin 1) Unit).exists_run_of_exec
    [.makeEnd 0, .addServer 0 0, .connect 0 (some 0), .enable 0 true, .call 0, .req 0 .accept,
      .req 0 .readEndnameInfo, .req 0 (.request false), .req 0 .dispatch, .deleteServer 0]
    (fun _ st => ((st.calls[0]?).any fun q => q.caller = .waiting ∧ q.pc = .waiting ∧
      st.isServerDead q.endname q.info.servername q.info.server) ∧ st.servers 0 = none)
    (by decide)
  obtain ⟨q, hq, hwaits⟩ := (Option.any_eq_true _ _).mp hany
  obtain ⟨hc, hpc, hdead⟩ := of_decide_eq_true hwaits
  obtain ⟨-, hfails⟩ := call_returns h hq
  obtain ⟨tr', st', q', hrun, hD, hq', hret⟩ := hfails hc hpc hdead
  exact ⟨tr, st, q, tr', st', q', h, hq, hc, hserver, hrun, hD, hq', hret⟩

end GoLabs.Labrpc
