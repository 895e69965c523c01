import GoLabs.Labrpc.Network

/-!
# Steps of the network and of its calls

`ReqStep` lists everything one step of the goroutines of a call can do, and `NetworkStep` what one
step of the network can do to the calls and the servers. `request_induction` is the rule by which
facts about calls are proved: a fact about one call and the trace has to hold when the call is made
and to survive its own steps and, with nothing changed in the call, all other steps of the network.
-/

namespace GoLabs.Labrpc

open GoLabs.Lib

variable {E N P B : Type}

/-! ## Steps of one call -/

/-- **Everything a step of a call can do.** -/
inductive ReqStep [DecidableEq P] (rn : Network E N P B) (q : Request E N P B) :
    ReqAction B → Request E N P B → Prop
  | accept (hc : q.caller = .sending) :
      ReqStep rn q .accept { q with caller := .waiting, pc := .start }
  | giveUp (hc : q.caller = .sending) :
      ReqStep rn q .giveUp { q with caller := .returned false }
  | link {n : N} {p : P} (hpc : q.pc = .start) (he : rn.enabled q.endname)
      (hn : rn.connections q.endname = some n) (hp : rn.servers n = some p) :
      ReqStep rn q .readEndnameInfo
        { q with pc := .connected, info := rn.readEndnameInfo q.endname }
  | noLink (hpc : q.pc = .start) :
      ReqStep rn q .readEndnameInfo
        (Request.delay { q with info := rn.readEndnameInfo q.endname } .failed)
  | dropRequest {drop : Bool} (hpc : q.pc = .connected) :
      ReqStep rn q (.request drop) (q.send .failed)
  | spawn {drop : Bool} {p : P} (hpc : q.pc = .connected) (hp : q.info.server = some p) :
      ReqStep rn q (.request drop) { q with pc := .waiting, handler := .spawned p }
  | dispatch {p : P} (hh : q.handler = .spawned p) :
      ReqStep rn q .dispatch { q with handler := .running p }
  | complete {p : P} {r : B} (hh : q.handler = .running p) :
      ReqStep rn q (.complete r) { q with handler := .returned ⟨true, some r⟩ }
  | receive {r : ReplyMsg B} (hpc : q.pc = .waiting) (hh : q.handler = .returned r) :
      ReqStep rn q .receive { q with pc := .checking, reply := some r, handler := .gone }
  | pollDead (hpc : q.pc = .waiting) :
      ReqStep rn q .poll { q with pc := .checking, serverDead := true, draining := true }
  | pollAlive (hpc : q.pc = .waiting) : ReqStep rn q .poll { q with serverDead := false }
  | drain {r : ReplyMsg B} (hh : q.handler = .returned r) :
      ReqStep rn q .drain { q with handler := .gone, draining := false }
  | recheck (hpc : q.pc = .checking) :
      ReqStep rn q .recheck { q with
        pc := .answering
        serverDead := rn.isServerDead q.endname q.info.servername q.info.server }
  | answerFailed {drop late : Bool} (hpc : q.pc = .answering) :
      ReqStep rn q (.answer drop late) (q.send .failed)
  | answerLate {drop late : Bool} {r : ReplyMsg B} (hpc : q.pc = .answering)
      (hr : q.reply = some r) (hd : q.serverDead = false) :
      ReqStep rn q (.answer drop late) (q.delay r)
  | answer {drop late : Bool} {r : ReplyMsg B} (hpc : q.pc = .answering)
      (hr : q.reply = some r) (hd : q.serverDead = false) :
      ReqStep rn q (.answer drop late) (q.send r)
  | fire {k : ℕ} {msg : ReplyMsg B} (hk : q.timers[k]? = some msg) :
      ReqStep rn q (.fire k) { q with timers := q.timers.eraseIdx k, sent := q.sent ++ [msg] }
  | wake {rep : ReplyMsg B} (hmem : rep ∈ q.sent) :
      ReqStep rn q .wake { q with caller := .returned rep.ok }

/-- **Inversion of `Request.step`.** -/
theorem ReqStep.of_step [DecidableEq P] {rn : Network E N P B} {q q' : Request E N P B}
    {a : ReqAction B} (h : q.step rn a = some q') : ReqStep rn q a q' := by
  cases a with
  | accept =>
      simp only [Request.step] at h
      split_ifs at h with hc
      cases h
      exact .accept hc.1
  | giveUp =>
      simp only [Request.step] at h
      split_ifs at h with hc
      cases h
      exact .giveUp hc.1
  | readEndnameInfo =>
      simp only [Request.step] at h
      split_ifs at h with hpc hinfo
      · cases h
        obtain ⟨he, hn, hp⟩ := hinfo
        obtain ⟨n, hn⟩ := Option.isSome_iff_exists.mp hn
        obtain ⟨p, hp⟩ := Option.isSome_iff_exists.mp hp
        change rn.connections q.endname = some n at hn
        change (rn.connections q.endname).bind rn.servers = some p at hp
        rw [hn, Option.bind_some] at hp
        exact .link hpc he hn hp
      · cases h
        exact .noLink hpc
  | request drop =>
      simp only [Request.step] at h
      split at h
      · rename_i p hpc hp
        split_ifs at h
        · cases h
          exact .dropRequest hpc
        · cases h
          exact .spawn hpc hp
      · cases h
  | dispatch =>
      simp only [Request.step] at h
      split at h
      · rename_i p hh
        cases h
        exact .dispatch hh
      · cases h
  | complete r =>
      simp only [Request.step] at h
      split at h
      · rename_i p hh
        cases h
        exact .complete hh
      · cases h
  | receive =>
      simp only [Request.step] at h
      split at h
      · rename_i r hpc hh
        cases h
        exact .receive hpc hh
      · cases h
  | poll =>
      simp only [Request.step] at h
      split_ifs at h with hpc hdead
      · cases h
        exact .pollDead hpc
      · cases h
        exact .pollAlive hpc
  | drain =>
      simp only [Request.step] at h
      split at h
      · rename_i r hd hh
        cases h
        exact .drain hh
      · cases h
  | recheck =>
      simp only [Request.step] at h
      split_ifs at h with hpc
      cases h
      exact .recheck hpc
  | answer drop late =>
      simp only [Request.step] at h
      split_ifs at h with hpc
      cases h
      unfold Request.answer
      split
      · exact .answerFailed hpc
      · rename_i r hr
        split_ifs with hd hdrop hlate
        · exact .answerFailed hpc
        · exact .answerFailed hpc
        · exact .answerLate hpc hr (Bool.not_eq_true _ ▸ hd)
        · exact .answer hpc hr (Bool.not_eq_true _ ▸ hd)
  | fire k =>
      obtain ⟨msg, hk, rfl⟩ := Option.map_eq_some_iff.mp h
      exact .fire hk
  | wake =>
      simp only [Request.step] at h
      split at h
      · rename_i rep rest hc hs
        cases h
        exact .wake (hs ▸ List.mem_cons_self)
      · cases h

/-! ## Steps of the network -/

section Steps

variable [DecidableEq P] {rn rn' : Network E N P B} {a : Action E N P B}

/-- **What a step of the network can do.** -/
inductive NetworkStep (rn : Network E N P B) : Action E N P B → Network E N P B → Prop
  /-- The tester does not touch the calls, and adds servers only by `AddServer`. -/
  | tester {a : Action E N P B} {rn' : Network E N P B} (hcalls : rn'.calls = rn.calls)
      (ha : ∀ c b, a ≠ .req c b)
      (hservers : ∀ n p, rn'.servers n = some p → rn.servers n = some p ∨ a = .addServer n p) :
      NetworkStep rn a rn'
  | call (e : E) : NetworkStep rn (.call e) { rn with calls := rn.calls ++ [.new e] }
  | req {c : ℕ} {b : ReqAction B} {q q' : Request E N P B} (hq : rn.calls[c]? = some q)
      (hstep : ReqStep rn q b q') :
      NetworkStep rn (.req c b) { rn with calls := rn.calls.set c q' }

/-- **Inversion of `Network.step`.** -/
theorem NetworkStep.of_step [DecidableEq E] [DecidableEq N] (h : rn.step a = some rn') :
    NetworkStep rn a rn' := by
  cases a with
  | makeEnd e =>
      simp only [Network.step] at h
      split_ifs at h
      cases h
      exact .tester rfl (by simp) fun n p => Or.inl
  | addServer n p =>
      cases h
      refine .tester rfl (by simp) fun m p' hm => ?_
      dsimp only at hm
      by_cases hmn : m = n
      · subst hmn
        rw [Function.update_self] at hm
        cases hm
        exact Or.inr rfl
      · rw [Function.update_of_ne hmn] at hm
        exact Or.inl hm
  | deleteServer n =>
      cases h
      refine .tester rfl (by simp) fun m p hm => ?_
      dsimp only at hm
      by_cases hmn : m = n
      · subst hmn
        rw [Function.update_self] at hm
        cases hm
      · rw [Function.update_of_ne hmn] at hm
        exact Or.inl hm
  | cleanup =>
      simp only [Network.step] at h
      split_ifs at h
      cases h
      exact .tester rfl (by simp) fun n p => Or.inl
  | stop =>
      simp only [Network.step] at h
      split_ifs at h
      cases h
      exact .tester rfl (by simp) fun n p => Or.inl
  | call e =>
      simp only [Network.step] at h
      split_ifs at h
      cases h
      exact .call e
  | req c b =>
      obtain ⟨q, hq, h⟩ := Option.bind_eq_some_iff.mp h
      obtain ⟨q', hstep, rfl⟩ := Option.map_eq_some_iff.mp h
      exact .req hq (ReqStep.of_step hstep)
  | _ =>
      cases h
      exact .tester rfl (by simp) fun n p => Or.inl

/-- Where the call `c` of the state after a step comes from. -/
inductive CallStep (rn : Network E N P B) (a : Action E N P B) (c : ℕ) : Request E N P B → Prop
  | same {q : Request E N P B} (hq : rn.calls[c]? = some q) (ha : ∀ b, a ≠ .req c b) :
      CallStep rn a c q
  | new {e : E} (hlen : rn.calls.length = c) (ha : a = .call e) : CallStep rn a c (.new e)
  | own {q q' : Request E N P B} {b : ReqAction B} (hq : rn.calls[c]? = some q)
      (ha : a = .req c b) (hstep : ReqStep rn q b q') : CallStep rn a c q'

/-- Every call after a step was there before, is new or has taken the step. -/
lemma NetworkStep.callStep (h : NetworkStep rn a rn') {c : ℕ} {q : Request E N P B}
    (hq : rn'.calls[c]? = some q) : CallStep rn a c q := by
  cases h with
  | tester hcalls ha hservers => exact .same (hcalls ▸ hq) (ha c)
  | call e =>
      rw [List.getElem?_append] at hq
      split_ifs at hq with hlt
      · exact .same hq (by simp)
      · rw [List.getElem?_singleton] at hq
        split_ifs at hq
        cases hq
        exact .new (by omega) rfl
  | @req c' b q₀ q' hq₀ hstep =>
      rw [List.getElem?_set] at hq
      split_ifs at hq with heq hlt
      · cases hq
        exact .own (heq ▸ hq₀) (by rw [heq]) hstep
      · refine .same hq fun b' hb => heq ?_
        cases hb
        rfl

/-- No call is forgotten. -/
lemma NetworkStep.length_le (h : NetworkStep rn a rn') : rn.calls.length ≤ rn'.calls.length := by
  cases h with
  | tester hcalls ha hservers => rw [hcalls]
  | call e => simp
  | req hq hstep => simp

/-- What is not registered under a name is registered there again by `AddServer` only. -/
lemma NetworkStep.servers_ne (h : NetworkStep rn a rn') {n : N} {p : P}
    (hn : rn.servers n ≠ some p) (ha : a ≠ .addServer n p) : rn'.servers n ≠ some p := by
  cases h with
  | tester hcalls hreq hservers =>
      intro hn'
      rcases hservers n p hn' with hold | heq
      · exact hn hold
      · exact ha heq
  | call e => exact hn
  | req hq hstep => exact hn

end Steps

/-! ## Induction over the life of a call -/

section Runs

variable [DecidableEq E] [DecidableEq N] [DecidableEq P]
variable {tr : Trace E N P B} {st : Network E N P B} {c : ℕ} {q : Request E N P B}

/-- **A rule for facts about a call**: it is made, another step is taken, or one of its own. -/
theorem request_induction {M : Trace E N P B → Request E N P B → Prop}
    (hnew : ∀ {tr x e}, (network E N P B).Run tr x → x.calls.length = c →
      M ((x, .call e) :: tr) (.new e))
    (hsame : ∀ {tr x a q}, (network E N P B).Run tr x → x.calls[c]? = some q →
      (∀ b, a ≠ .req c b) → M tr q → M ((x, a) :: tr) q)
    (hown : ∀ {tr x b q q'}, (network E N P B).Run tr x → x.calls[c]? = some q → M tr q →
      ReqStep x q b q' → M ((x, .req c b) :: tr) q')
    (h : (network E N P B).Run tr st) (hq : st.calls[c]? = some q) : M tr q := by
  induction h generalizing q with
  | init => cases hq
  | step h hs ih =>
      cases (NetworkStep.of_step hs).callStep hq with
      | same hq ha => exact hsame h hq ha (ih hq)
      | new hlen ha =>
          subst ha
          exact hnew h hlen
      | own hq ha hstep =>
          subst ha
          exact hown h hq (ih hq) hstep

/-- The steps of a call come after it was made. -/
lemma lt_length_of_mem (h : (network E N P B).Run tr st) {x : Network E N P B} {b : ReqAction B}
    (hx : (x, .req c b) ∈ tr) : c < st.calls.length := by
  obtain ⟨-, tr₂, y, -, -, hstep⟩ := h.of_mem hx
  have hc : c < x.calls.length := by
    obtain ⟨q, hq, -⟩ := Option.bind_eq_some_iff.mp hstep
    exact (List.getElem?_eq_some_iff.mp hq).1
  have hle : x.calls.length ≤ st.calls.length :=
    h.rel_of_visited (R := fun x y => x.calls.length ≤ y.calls.length) (fun x => le_refl _)
      (fun h h' => le_trans h h') (fun hs => (NetworkStep.of_step hs).length_le) (Or.inr ⟨_, hx⟩)
  exact lt_of_lt_of_le hc hle

end Runs

end GoLabs.Labrpc
