import GoLabs.Consensus.Commit

/-!
# Leader completeness

An entry of term `T` that a majority held while in term `T` is in the log of every peer when it
becomes leader of a later term (`held_of_promotion`). The proof is by strong induction on the later
term `U`: the leaders of the terms between `T` and `U` have the entry (`LeadersHold`). The two
majorities have a peer `v` in common.

* `v` keeps the entry until it votes (`retained`). `Start` only appends, and a request it accepts
  leaves it with the log of a leader of some term between `T` and `U`; for a later leader that is
  the induction hypothesis, and a log of the leader of `T` itself that ends before the entry is not
  accepted unless the follower erases what it holds without a conflict (`erases`).
* The candidate's log is at least as up to date as the log of `v`, so it has the entry too
  (`holds_of_upToDate`).

Nobody writes for term `U` before its leader is promoted (`no_leader_before`), so the induction
stays below `U`.
-/

namespace GoLabs.Consensus

open GoLabs.Lib

variable {n : ℕ} {C : Type}

/-- The step that goes wrong: a follower accepts a request whose entries it holds already, and cuts
off what it holds behind them, which does not conflict with anything in the request.
Source: `raft.go` `AppendEntries` -/
def erases (st : Cluster n C) : Action n C → Bool
  | .appendEntries r p => (st.beatRequest? r p).any fun args =>
      (st.rafts p).accepts args ∧
        args.entries.map LogEntry.term <+:
          ((st.rafts p).log.drop (args.prevLogIndex + 1).toNat).map LogEntry.term ∧
        args.prevLogIndex + args.entries.length + 1 < ((st.rafts p).log.length : ℤ)
  | _ => false

/-- The steps that let an entry get lost that a majority held in its term. -/
def holdSlip (st : Cluster n C) (a : Action n C) : Bool :=
  ackSlip st a || buildsStale st a || erases st a

section Slips

variable {tr : Trace n C} (hD : Avoids (fun x a => holdSlip x a) tr)
include hD

/-- These runs have no slip of an acknowledgement. -/
lemma avoids_ackSlip_of_holdSlip : Avoids (fun x a => ackSlip x a) tr :=
  hD.mono fun x a h => by simp [holdSlip, h]

/-- These runs have no slip of an election. -/
lemma avoids_electionSlip_of_holdSlip : Avoids (fun x a => electionSlip x a) tr :=
  avoids_electionSlip (avoids_ackSlip_of_holdSlip hD)

/-- In these runs no leader raises its term. -/
lemma avoids_raisesLeader_of_holdSlip : Avoids (fun x a => raisesLeader x a) tr :=
  avoids_raisesLeader (avoids_electionSlip_of_holdSlip hD)

/-- A request is built by a peer that leads the term of the request. -/
lemma BuiltIn.leader {r : ℕ} {p s : Fin n} {args : AppendEntriesArgs n C} {w : Cluster n C}
    (hb : BuiltIn tr r p s args w) :
    (w.rafts s).state = .leader ∧ (w.rafts s).currentTerm = args.term := by
  refine ⟨?_, (Raft.heartBeatArgs_eq_some hb.eq).1.symm⟩
  obtain ⟨rd, hrd, hs⟩ := Option.map_eq_some_iff.mp hb.sender
  by_contra hne
  exact hD _ hb.mem (by simp [holdSlip, buildsStale, hrd, hs, hne])

end Slips

/-- A request built from a log that is a proper prefix of the follower's own log erases. -/
lemma erases_of_isPrefix {st w : Cluster n C} {r : ℕ} {p s : Fin n} {rd : Round n C}
    {args : AppendEntriesArgs n C} (hrd : st.rounds[r]? = some rd)
    (hc : rd.calls p = .requested args) (hacc : (st.rafts p).accepts args)
    (hb : (w.rafts s).heartBeatArgs s p = some args) (hpre : (w.rafts s).log <+: (st.rafts p).log)
    (hlt : (w.rafts s).log.length < (st.rafts p).log.length) :
    erases st (.appendEntries r p) := by
  obtain ⟨-, -, h0, ⟨prev, hprev, -⟩, hent, -⟩ := Raft.heartBeatArgs_eq_some hb
  have hlen := (List.getElem?_eq_some_iff.mp hprev).1
  have hnat : (args.prevLogIndex + 1).toNat = args.prevLogIndex.toNat + 1 := by omega
  simp only [erases, Cluster.beatRequest?_eq_some hrd hc, Option.any_some, decide_eq_true_eq]
  refine ⟨hacc, ?_, ?_⟩
  · rw [hent, hnat]
    exact (hpre.drop _).map _
  · rw [hent, List.length_drop]
    omega

section Runs

variable [Inhabited C] {tr : Trace n C} {st : Cluster n C}

/-! ## One leader per term -/

/-- A peer that led a term at some moment of the run has won it. -/
lemma won_of_visited (h : (cluster n C).Run tr st)
    (hD : Avoids (fun x a => electionSlip x a) tr) {x : Cluster n C} (hx : Visited tr st x)
    {s : Fin n} (hs : (x.rafts s).state = .leader) : Won st s (x.rafts s).currentTerm := by
  obtain ⟨tr₂, hsuf, hrun⟩ := h.of_visited hx
  have hD₂ : Avoids (fun x a => electionSlip x a) tr₂ := fun q hq => hD q (hsuf.subset hq)
  exact (won_of_leader hrun (avoids_raisesLeader hD₂) hs).mono h hx

/-- One peer leads a term, over the whole run. -/
lemma leader_unique (h : (cluster n C).Run tr st)
    (hD : Avoids (fun x a => electionSlip x a) tr) {x y : Cluster n C} (hx : Visited tr st x)
    (hy : Visited tr st y) {s s' : Fin n} (hs : (x.rafts s).state = .leader)
    (hs' : (y.rafts s').state = .leader)
    (hT : (x.rafts s).currentTerm = (y.rafts s').currentTerm) : s = s' := by
  have hw := won_of_visited h hD hx hs
  have hw' := won_of_visited h hD hy hs'
  exact hw.unique (votes_of_run h (avoids_forgetsVote hD)).2 (hT ▸ hw')

/-- The logs of the leader of a term extend one another, over the whole run. -/
lemma leaderLog_comparable (h : (cluster n C).Run tr st)
    (hD : Avoids (fun x a => electionSlip x a) tr) {x y : Cluster n C} (hx : Visited tr st x)
    (hy : Visited tr st y) {s s' : Fin n} (hs : (x.rafts s).state = .leader)
    (hs' : (y.rafts s').state = .leader)
    (hT : (x.rafts s).currentTerm = (y.rafts s').currentTerm) :
    (x.rafts s).log <+: (y.rafts s').log ∨ (y.rafts s').log <+: (x.rafts s).log := by
  obtain rfl := leader_unique h hD hx hy hs hs' hT
  exact log_comparable h hx hy hT (by simp [hs]) (by simp [hs'])

/-- A created list is a log of the leader of its term. -/
lemma Created.leader (h : (cluster n C).Run tr st) {T : ℕ} {L : List (LogEntry C)}
    (hL : Created tr T L) : ∃ y s, Visited tr st y ∧ (y.rafts s).state = .leader ∧
      (y.rafts s).currentTerm = T ∧ (y.rafts s).log = L := by
  obtain ⟨z, s, c, hz, hs, rfl, rfl⟩ := hL
  obtain ⟨y, hy, hys, hyT, hylog⟩ := visited_start h hz hs
  exact ⟨y, s, hy, hys, hyT, hylog⟩

/-- A peer that is a candidate has been one as long as it has been in its term. -/
lemma candidate_of_visited (h : (cluster n C).Run tr st) {x : Cluster n C} (hx : Visited tr st x)
    {s : Fin n} (hs : (st.rafts s).state = .candidate)
    (hT : (x.rafts s).currentTerm = (st.rafts s).currentTerm) :
    (x.rafts s).state = .candidate := by
  refine (h.rel_of_visited (R := fun x y => (x.rafts s).currentTerm ≤ (y.rafts s).currentTerm ∧
    ((y.rafts s).state = .candidate → (x.rafts s).currentTerm = (y.rafts s).currentTerm →
      (x.rafts s).state = .candidate)) (fun _ => ⟨le_refl _, fun h _ => h⟩) ?_ ?_ hx).2 hs hT
  · rintro x y z ⟨hxy, hcxy⟩ ⟨hyz, hcyz⟩
    refine ⟨hxy.trans hyz, fun hc hT => ?_⟩
    exact hcxy (hcyz hc (by omega)) (by omega)
  · intro x a y hs
    have hp := (Step.of_cluster hs).peer s
    exact ⟨hp.term_le, fun hc hT => (hp.log_eq_of_candidate hT.symm hc).1⟩

/-- Before a promotion nobody has led the term. -/
lemma no_leader_before (h : (cluster n C).Run tr st)
    (hD : Avoids (fun x a => electionSlip x a) tr) {a : Action n C} {c : Fin n}
    (hb : becomesLeader st a c) {w : Cluster n C} (hw : Visited tr st w) {s : Fin n}
    (hs : (w.rafts s).state = .leader) :
    (w.rafts s).currentTerm ≠ (st.rafts c).currentTerm := by
  intro hT
  obtain ⟨hcand, hwon⟩ := won_of_becomesLeader (electionsOk_of_run h) hb
  have hwon' := won_of_visited h hD hw hs
  obtain rfl := (hT ▸ hwon').unique (votes_of_run h (avoids_forgetsVote hD)).2 hwon
  rw [candidate_of_visited h hw hcand hT] at hs
  cases hs

/-! ## Keeping an entry -/

/-- **A peer keeps an entry of term `T`** that it held while in term `T` or later, as long as the
later leaders it has heard of had the entry when they wrote to it. -/
lemma retained (h : (cluster n C).Run tr st) (hD : Avoids (fun x a => holdSlip x a) tr)
    {v : Fin n} {z : Cluster n C} {k : ℕ} {e : LogEntry C} (hz : Visited tr st z)
    (hT : e.term ≤ (z.rafts v).currentTerm) (hk : 1 ≤ k) (hze : (z.rafts v).log[k]? = some e)
    (hreq : ∀ r p s args w, BuiltIn tr r p s args w → e.term < args.term →
      args.term ≤ (st.rafts v).currentTerm → (w.rafts s).log[k]? = some e) :
    (st.rafts v).log[k]? = some e := by
  induction h with
  | init =>
      rcases hz with rfl | ⟨a, ha⟩
      · exact hze
      · exact absurd ha List.not_mem_nil
  | @step tr x y a h hs ih =>
      rcases hz with rfl | ⟨b, hb⟩
      · exact hze
      have hzx := Visited.of_cons hb
      have hp := (Step.of_cluster hs).peer v
      have hsub : tr ⊆ (x, a) :: tr := List.subset_cons_self _ _
      have hx : (x.rafts v).log[k]? = some e := ih hD.tail hzx fun r p s args w hb hlt hle =>
        hreq r p s args w (hb.mono hsub) hlt (hle.trans hp.term_le)
      have hklt := (List.getElem?_eq_some_iff.mp hx).1
      rcases hp.log_cases with hlog | ⟨c, -, -, -, hlog⟩ | ⟨r, rd, args, rfl, hrd, hc, hacc, hrf⟩
      · rw [hlog, hx]
      · rw [hlog, List.getElem?_append_left hklt, hx]
      · obtain ⟨w, hb⟩ := (built_of_run h r rd hrd).2 v args (by simp [hc])
        have hel := avoids_electionSlip_of_holdSlip hD.tail
        have hlogw := accept_log_eq_sender h (oneAppender_of_run h hel) hb hacc args.term
        have hle : e.term ≤ args.term :=
          (hT.trans (phase_of_visited h hzx v).1).trans (Raft.accepts_iff.mp hacc).2.1
        rw [hrf, hlogw]
        rcases hle.lt_or_eq with hlt | heq
        · exact hreq r v rd.leader args w (hb.mono hsub) hlt (by simp [hrf])
        · -- the request comes from the leader of the entry's own term
          have hsrc := (sourced_of_run h (oneAppender_of_run h hel) (Visited.now _ _) v).2 k e hk hx
          obtain ⟨y', s', hy', hl', hT', hlog'⟩ := hsrc.leader h
          obtain ⟨hlw, hTw⟩ := BuiltIn.leader hD.tail hb
          have hk' : ((x.rafts v).log.take (k + 1))[k]? = some e := by
            rw [List.getElem?_take_of_lt (by omega), hx]
          rcases leaderLog_comparable h hel hy' (hb.visited _) hl' hlw (by omega) with hpre | hpre
          · rw [hlog'] at hpre
            exact getElem?_of_isPrefix hpre hk'
          · rw [hlog'] at hpre
            by_cases hlen : k < (w.rafts rd.leader).log.length
            · have hkw := List.getElem?_eq_getElem hlen
              rw [hkw, ← getElem?_of_isPrefix hpre hkw, hk']
            · refine absurd (erases_of_isPrefix hrd hc hacc hb.eq
                (hpre.trans (List.take_prefix _ _)) (by omega)) ?_
              exact fun her => hD.head (by simp [holdSlip, her])

/-! ## Voting for an up-to-date log -/

/-- Every vote granted is a step of the trace. -/
def VotesTraced (tr : Trace n C) (st : Cluster n C) : Prop :=
  ∀ el ∈ st.elections, ∀ v args reply, (el.calls v).answer? = some (args, reply) →
    reply.voteGranted = true → ∃ y y' e, (y, .requestVote e v) ∈ tr ∧
      (cluster n C).step y (.requestVote e v) = some y' ∧ Grants (y.rafts v) (y'.rafts v) args

/-- Every vote on record was given in some step of the run. -/
theorem votesTraced_of_run (h : (cluster n C).Run tr st) : VotesTraced tr st := by
  induction h with
  | init =>
      intro el hel
      simp [cluster, Cluster.make] at hel
  | @step tr x y a h hs ih =>
      intro el hel v args reply hans hg
      rcases ((Step.of_cluster hs).election hel).answer hans with ⟨el₀, hm, hans⟩ | ⟨e, rfl, hgr⟩
      · obtain ⟨z, z', e, hz, hst, hgr⟩ := ih el₀ hm v args reply hans hg
        exact ⟨z, z', e, List.mem_cons_of_mem _ hz, hst, hgr⟩
      · exact ⟨x, y, e, List.mem_cons_self, hs, hgr hg⟩

/-- **A log at least as up to date as one with the entry has the entry**, when the leaders of the
terms after the entry's have it. -/
lemma holds_of_upToDate (h : (cluster n C).Run tr st) (hu : OneAppenderPerTerm tr)
    {voter cand : Raft n C} (hv : Sourced tr voter.log) (hc : Sourced tr cand.log)
    {Tv : ℕ} (hshape : LogShape Tv voter.log) {k : ℕ} {e : LogEntry C} (hk : 1 ≤ k)
    (hke : voter.log[k]? = some e) {t tc : ℕ} (ht : voter.lastLogTerm? = some t)
    (htc : cand.lastLogTerm? = some tc)
    (hup : t < tc ∨ (tc = t ∧ voter.lastLogIndex ≤ cand.lastLogIndex))
    (hlater : e.term < tc → Created tr tc cand.log → cand.log[k]? = some e) :
    cand.log[k]? = some e := by
  obtain ⟨g, hg, rfl⟩ := lastLogTerm?_eq_some ht
  obtain ⟨f, hf, rfl⟩ := lastLogTerm?_eq_some htc
  have hkv := (List.getElem?_eq_some_iff.mp hke).1
  have hlast : ∀ {L : List (LogEntry C)} {e : LogEntry C}, Sourced tr L →
      L[L.length - 1]? = some e → 1 ≤ L.length - 1 → Created tr e.term L := by
    intro L e hL he hlen
    have := hL.2 _ e hlen he
    rwa [List.take_of_length_le (by omega)] at this
  rcases hup with hlt | ⟨heq, hlen⟩
  · have hcand : 1 ≤ cand.log.length - 1 := by
      by_contra hnot
      rw [show cand.log.length - 1 = 0 by omega, hc.1, Option.some.injEq] at hf
      simp [← hf] at hlt
    have hle : e.term ≤ g.term := hshape.term_le (by omega) hke hg
    exact hlater (by omega) (hlast hc hf hcand)
  · -- both logs end in the same term, so the longer one extends the other
    simp only [Raft.lastLogIndex] at hlen
    rcases Created.comparable h hu (hlast hv hg (by omega)) (heq ▸ hlast hc hf (by omega))
      with hpre | hpre
    · exact getElem?_of_isPrefix hpre hke
    · rw [hpre.eq_of_length (le_antisymm hpre.length_le (by omega)), hke]

/-! ## Leader completeness -/

/-- `v` had the entry `e` at index `k` while it was in the term of the entry. -/
def Held (tr : Trace n C) (st : Cluster n C) (k : ℕ) (e : LogEntry C) (v : Fin n) : Prop :=
  ∃ z, Visited tr st z ∧ (z.rafts v).currentTerm = e.term ∧ (z.rafts v).log[k]? = some e

/-- A leader in some state of the run was promoted in its term with a log it has only appended to
since. -/
lemma promoted_of_visited (h : (cluster n C).Run tr st)
    (hD : Avoids (fun x a => raisesLeader x a) tr) {w : Cluster n C} (hw : Visited tr st w)
    {s : Fin n} (hs : (w.rafts s).state = .leader) :
    ∃ x a, (x, a) ∈ tr ∧ becomesLeader x a s ∧
      (x.rafts s).currentTerm = (w.rafts s).currentTerm ∧ (x.rafts s).log <+: (w.rafts s).log := by
  obtain ⟨tr₂, hsuf, hrun⟩ := h.of_visited hw
  obtain ⟨x, a, hx, hb, hT, hlog⟩ :=
    promoted_of_run hrun (fun q hq => hD q (hsuf.subset hq)) s hs
  exact ⟨x, a, hsuf.subset hx, hb, hT, hlog⟩

/-- A state in which `v` has not reached the term it is in after a given step came before the
step. -/
lemma visited_before {tr₁ tr₂ : Trace n C} {y y' z : Cluster n C} {b : Action n C}
    (h : (cluster n C).Run (tr₁ ++ (y, b) :: tr₂) st) (hy : (cluster n C).step y b = some y')
    (hz : Visited (tr₁ ++ (y, b) :: tr₂) st z) {v : Fin n}
    (hlt : (z.rafts v).currentTerm < (y'.rafts v).currentTerm) : Visited tr₂ y z := by
  rcases h.visited_or_rel
    (R := fun x y => (x.rafts v).currentTerm ≤ (y.rafts v).currentTerm) (fun _ => le_refl _)
    le_trans (fun hs => ((Step.of_cluster hs).peer v).term_le) hy hz with hz | hle
  · exact hz
  · omega

/-- The leaders of the terms after the entry's, up to `U`, have the entry. -/
def LeadersHold (tr : Trace n C) (st : Cluster n C) (k : ℕ) (e : LogEntry C) (U : ℕ) : Prop :=
  ∀ w s, Visited tr st w → (w.rafts s).state = .leader → e.term < (w.rafts s).currentTerm →
    (w.rafts s).currentTerm ≤ U → (w.rafts s).log[k]? = some e

section LeadersHold

variable {k : ℕ} {e : LogEntry C} {U : ℕ}

/-- Whoever held the entry keeps it as long as its term does not exceed `U`. -/
lemma LeadersHold.kept (hlead : LeadersHold tr st k e U)
    (hD : Avoids (fun x a => holdSlip x a) tr) (hk : 1 ≤ k) {tr' : Trace n C} {y z : Cluster n C}
    {v : Fin n} (hrun : (cluster n C).Run tr' y) (hsub : tr' ⊆ tr) (hz : Visited tr' y z)
    (hle : (y.rafts v).currentTerm ≤ U) (hzT : (z.rafts v).currentTerm = e.term)
    (hze : (z.rafts v).log[k]? = some e) : (y.rafts v).log[k]? = some e := by
  refine retained hrun (fun q hq => hD q (hsub hq)) hz hzT.ge hk hze ?_
  intro r p s args w hbw hlt hle'
  obtain ⟨hl, hTw⟩ := BuiltIn.leader hD (hbw.mono hsub)
  exact hlead w s ((hbw.mono hsub).visited st) hl (by omega) (by omega)

/-- A candidate that a peer with the entry has voted for has it too. -/
lemma LeadersHold.of_vote (hlead : LeadersHold tr st k e U) (h : (cluster n C).Run tr st)
    (hD : Avoids (fun x a => holdSlip x a) tr) (hk : 1 ≤ k) {y y' : Cluster n C} {i : ℕ}
    {v c : Fin n} {args : RequestVoteArgs n} (hy : (y, Action.requestVote i v) ∈ tr)
    (hgr : Grants (y.rafts v) (y'.rafts v) args) (hye : (y.rafts v).log[k]? = some e)
    (hidx : args.lastLogIndex = (st.rafts c).lastLogIndex)
    (htc : (st.rafts c).lastLogTerm? = some args.lastLogTerm)
    (hT : (st.rafts c).currentTerm ≤ U) : (st.rafts c).log[k]? = some e := by
  have hu := oneAppender_of_run h (avoids_electionSlip_of_holdSlip hD)
  have hvis : Visited tr st y := Or.inr ⟨_, hy⟩
  obtain ⟨t, ht, hup⟩ := hgr.upToDate
  refine holds_of_upToDate h hu (sourced_of_run h hu hvis v)
    (sourced_of_run h hu (Visited.now _ _) c) (logShape_of_run h hvis v) hk hye ht htc
    (hidx ▸ hup) fun hlt hcreated => ?_
  -- the last entry of the candidate is of a later term, and its leader had the candidate's log
  obtain ⟨w, s, hw, hl, hTw, hlogw⟩ := hcreated.leader h
  obtain ⟨f, hf, hfT⟩ := lastLogTerm?_eq_some htc
  have hle := (logShape_of_run h (Visited.now _ _) c).bound f (List.mem_of_getElem? hf)
  rw [← hlogw]
  exact hlead w s hw hl (by omega) (by omega)

end LeadersHold

/-- **Leader completeness**: an entry that a majority held in its own term is in the log of every
peer that becomes leader of a later term. -/
theorem held_of_promotion (h : (cluster n C).Run tr st)
    (hD : Avoids (fun x a => holdSlip x a) tr) {k : ℕ} {e : LogEntry C} (hk : 1 ≤ k)
    {Q : Finset (Fin n)} (hQ : Majority Q) (hheld : ∀ v ∈ Q, Held tr st k e v) {U : ℕ}
    (hU : e.term < U) {x : Cluster n C} {a : Action n C} {c : Fin n} (hx : (x, a) ∈ tr)
    (hb : becomesLeader x a c) (hT : (x.rafts c).currentTerm = U) :
    (x.rafts c).log[k]? = some e := by
  induction U using Nat.strong_induction_on generalizing x a c with
  | _ U ih =>
      obtain ⟨tr₁, tr₂, x', rfl, hrun, hstep⟩ := h.of_mem hx
      have hsub : tr₂ ⊆ tr₁ ++ (x, a) :: tr₂ := fun q hq =>
        List.mem_append_right _ (List.mem_cons_of_mem _ hq)
      have hD₂ : Avoids (fun x a => holdSlip x a) tr₂ := fun q hq => hD q (hsub hq)
      -- the leaders that were there before the promotion are those of the induction hypothesis
      have hlead : LeadersHold tr₂ x k e U := by
        intro w s hw hs hlt hle
        have hne := no_leader_before hrun (avoids_electionSlip_of_holdSlip hD₂) hb hw hs
        obtain ⟨x₁, a₁, hx₁, hb₁, hT₁, hlog₁⟩ :=
          promoted_of_visited hrun (avoids_raisesLeader_of_holdSlip hD₂) hw hs
        exact getElem?_of_isPrefix hlog₁
          (ih _ (by omega) hlt (hsub hx₁) hb₁ hT₁)
      obtain ⟨hcand, V, hV, hvote⟩ := won_of_becomesLeader (electionsOk_of_run hrun) hb
      obtain ⟨v, hvQ, hvV⟩ := hQ.exists_mem_inter hV
      obtain ⟨z, hz, hzT, hze⟩ := hheld v hvQ
      rcases hvote v hvV with ⟨el, hel', ⟨args, reply⟩, hans, hg, hargsT, hargsC⟩ | ⟨rfl, -⟩
      · obtain ⟨y, y', i, hy, hyst, hgr⟩ := votesTraced_of_run hrun el hel' v args reply hans hg
        dsimp only at hargsT hargsC
        subst hargsC
        have hok := electionsOk_of_run hrun el hel'
        obtain rfl := hok.args_eq v args (Rpc.args?_of_answer? hans)
        obtain ⟨hidx, htc⟩ := hok.lastLog hargsT.symm hcand
        -- the vote came after the voter held the entry
        obtain ⟨tr₄, tr₃, -, rfl, hrun₃, -⟩ := hrun.of_mem hy
        have hsplit : tr₁ ++ (x, a) :: (tr₄ ++ (y, .requestVote i v) :: tr₃) =
            (tr₁ ++ (x, a) :: tr₄) ++ (y, .requestVote i v) :: tr₃ := by simp
        have hsub₃ : tr₃ ⊆ tr₄ ++ (y, .requestVote i v) :: tr₃ := fun q hq =>
          List.mem_append_right _ (List.mem_cons_of_mem _ hq)
        have hz₃ : Visited tr₃ y z := visited_before (hsplit ▸ h) hyst (hsplit ▸ hz)
          (by rw [hzT, hgr.currentTerm, hargsT, hT]; exact hU)
        have hye := hlead.kept hD₂ hk hrun₃ hsub₃ hz₃ (hgr.term_le.trans (by omega)) hzT hze
        exact hlead.of_vote hrun hD₂ hk hy hgr hye hidx htc hT.le
      · -- the candidate itself held the entry
        have hterm := ((Step.of_cluster hstep).peer v).term_le
        have hz₂ : Visited tr₂ x z := visited_before h hstep hz (v := v) (by omega)
        exact hlead.kept hD₂ hk hrun (List.Subset.refl _) hz₂ hT.le hzT hze

end Runs

end GoLabs.Consensus
