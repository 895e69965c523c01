import GoLabs.Consensus.Logs

/-!
# Committing

The handler of an answer to `AppendEntries` counts the successes of its round and, with more than
half of the peers, sets `commitIndex` to the end of the log (`committer`). Nobody has to hold that
log:

* a peer that is no follower answers success and stores nothing (`acksUnstored`), so that the
  success is worth something only if the peer happens to have the entries already;
* the end of the log is read when the answer arrives. What the answers confirm was fixed when the
  requests were built; the sender may have appended to its log since, or have lost the leadership
  and its log with it (`uncovered`);
* two peers can lead one term after `raisesLeader`, and a follower then mixes their logs.

Each of the three alone lets a peer commit what no majority ever stored (`majorityStored_fails`).
Without them every success counted came from a peer that held, at that moment, the very log the
sender has when it commits (`stored_of_commit`, `majorityStored`).
-/

namespace GoLabs.Consensus

open GoLabs.Lib

variable {n : ℕ} {C : Type}

/-! ## Counting successes -/

/-- The peers whose success the sender has counted. -/
def Round.counted (rd : Round n C) : Finset (Fin n) :=
  Rpc.counted AppendEntriesReply.success rd.calls

/-- `count` is the sender itself and the successes counted. -/
def CountsOk (st : Cluster n C) : Prop := ∀ rd ∈ st.rounds, rd.count ≤ rd.counted.card + 1

/-- One step keeps the counts. -/
lemma CountsOk.step {st st' : Cluster n C} {a : Action n C} (h : CountsOk st)
    (hs : Step st a st') : CountsOk st' := by
  intro rd hrd
  obtain ⟨r, hy⟩ := List.mem_iff_getElem?.mp hrd
  cases hs.round hy with
  | old hr => exact h rd (List.mem_of_getElem? hr)
  | new => simp
  | built ha hr hc hargs =>
      exact (h _ (List.mem_of_getElem? hr)).trans (Nat.add_le_add_right
        (Finset.card_le_card (Rpc.counted_subset_update (by simp [hc]))) 1)
  | answered ha hr hc =>
      exact (h _ (List.mem_of_getElem? hr)).trans (Nat.add_le_add_right
        (Finset.card_le_card (Rpc.counted_subset_update (by simp [hc]))) 1)
  | @returned p rd args reply count done ha hr hc hcount =>
      have hle := h _ (List.mem_of_getElem? hr)
      refine hcount.trans ?_
      split_ifs with hg
      · exact Nat.add_le_add_right (hle.trans (Rpc.card_counted_returned hc hg)) 1
      · exact hle.trans (Nat.add_le_add_right
          (Finset.card_le_card (Rpc.counted_subset_update (by simp [hc]))) 1)

/-- **An answer on record after a step** was on record before it, or was given in this step. -/
lemma RoundStep.answer {st st' : Cluster n C} {a : Action n C} {r : ℕ} {rd : Round n C}
    (h : RoundStep st a st' r rd) {q : Fin n} {args : AppendEntriesArgs n C}
    {reply : AppendEntriesReply} (hans : (rd.calls q).answer? = some (args, reply)) :
    ∃ rd₀, st.rounds[r]? = some rd₀ ∧ rd₀.leader = rd.leader ∧
      ((rd₀.calls q).answer? = some (args, reply) ∨
        (a = .appendEntries r q ∧ rd₀.calls q = .requested args ∧
          (reply.success = true → (st.rafts q).state ≠ .follower ∧
            (st.rafts q).currentTerm ≤ args.term ∨ (st.rafts q).accepts args ∧
            st'.rafts q = { st.rafts q with currentTerm := args.term }.accept args))) := by
  cases h with
  | old hrd => exact ⟨rd, hrd, rfl, Or.inl hans⟩
  | new =>
      simp only [Cluster.spawn] at hans
      split_ifs at hans <;> cases hans
  | @built p rd args₀ ha hrd hc hargs =>
      refine ⟨rd, hrd, rfl, Or.inl ?_⟩
      by_cases hqp : q = p
      · subst hqp
        simp at hans
      · simpa [hqp] using hans
  | @answered p rd args₀ reply₀ ha hrd hc hr =>
      refine ⟨rd, hrd, rfl, ?_⟩
      by_cases hqp : q = p
      · subst hqp
        simp only [Function.update_self, Rpc.answer?_replied, Option.some.injEq,
          Prod.mk.injEq] at hans
        obtain ⟨rfl, rfl⟩ := hans
        exact Or.inr ⟨ha, hc, hr⟩
      · exact Or.inl (by simpa [hqp] using hans)
  | @returned p rd args₀ reply₀ count done ha hrd hc hcount =>
      refine ⟨rd, hrd, rfl, Or.inl ?_⟩
      by_cases hqp : q = p
      · subst hqp
        simpa [hc] using hans
      · simpa [hqp] using hans

/-! ## The steps that go wrong -/

/-- A peer that is no follower answers an `AppendEntries` with success, and stores nothing. What the
request carries may be in its log already; the step is one of these all the same.
Source: `raft.go` `AppendEntries` -/
def acksUnstored (st : Cluster n C) : Action n C → Bool
  | .appendEntries r p => (st.beatRequest? r p).any fun args =>
      (st.rafts p).state ≠ .follower ∧ (st.rafts p).currentTerm ≤ args.term
  | _ => false

/-- The request was of the sender's present term and went up to the present end of its log. -/
def Raft.covers (rf : Raft n C) (args : AppendEntriesArgs n C) : Bool :=
  args.term = rf.currentTerm ∧ args.prevLogIndex + args.entries.length + 1 = (rf.log.length : ℤ)

/-- A sender with the decisive answer of `p` in hand still leads, and every success counted
answers a request that covers the log. -/
def Round.covered (rd : Round n C) (rf : Raft n C) (p : Fin n) : Bool :=
  rf.state = .leader ∧ ∀ q ∈ insert p rd.counted, ∀ ar ∈ (rd.calls q).answer?, rf.covers ar.1

/-- `commitIndex` is set to the end of a log that the answers do not confirm.
Source: `raft.go` `HeartBeat` -/
def uncovered (st : Cluster n C) : Action n C → Bool
  | .heartBeatReply r p => st.rounds[r]?.any fun rd =>
      rd.commits p ∧ ¬ rd.covered (st.rafts rd.leader) p
  | _ => false

/-- The steps that let a success stand for nothing stored. -/
def ackSlip (st : Cluster n C) (a : Action n C) : Bool := raisesLeader st a || acksUnstored st a

/-- The steps that let a peer commit what no majority stored. -/
def commitSlip (st : Cluster n C) (a : Action n C) : Bool := ackSlip st a || uncovered st a

/-- A peer forgets its vote when it steps down for a request, and stores nothing then. -/
lemma acksUnstored_of_forgetsVote {st : Cluster n C} {a : Action n C} (h : forgetsVote st a) :
    acksUnstored st a := by
  cases a with
  | appendEntries r p =>
      simp only [forgetsVote, acksUnstored, Option.any_eq_true, decide_eq_true_eq] at h ⊢
      obtain ⟨args, hargs, hs, hT, -⟩ := h
      exact ⟨args, hargs, hs, hT.le⟩
  | _ => cases h

/-- Without the slips of an acknowledgement there are none of an election. -/
lemma avoids_electionSlip {tr : Trace n C} (hD : Avoids (fun x a => ackSlip x a) tr) :
    Avoids (fun x a => electionSlip x a) tr := by
  refine hD.mono fun x a h => ?_
  rcases Bool.or_eq_true_iff.mp h with h | h
  · simp [ackSlip, h]
  · simp [ackSlip, acksUnstored_of_forgetsVote h]

/-- Without the slips of a commit there are none of an acknowledgement. -/
lemma avoids_ackSlip {tr : Trace n C} (hD : Avoids (fun x a => commitSlip x a) tr) :
    Avoids (fun x a => ackSlip x a) tr :=
  hD.mono fun x a h => by simp [commitSlip, h]

/-- The peer that sets `commitIndex` in this step as the handler of an answer.
Source: `raft.go` `HeartBeat` -/
def committer (st : Cluster n C) : Action n C → Option (Fin n)
  | .heartBeatReply r p => st.rounds[r]?.bind fun rd =>
      if rd.commits p then some rd.leader else none
  | _ => none

/-- A commit is the handling of the answer that makes a majority. -/
lemma committer_eq_some {st : Cluster n C} {a : Action n C} {s : Fin n}
    (h : committer st a = some s) : ∃ (r : ℕ) (p : Fin n) (rd : Round n C),
      a = .heartBeatReply r p ∧ st.rounds[r]? = some rd ∧ rd.commits p ∧ rd.leader = s := by
  cases a with
  | heartBeatReply r p =>
      simp only [committer, Option.bind_eq_some_iff, Option.ite_none_right_eq_some,
        Option.some.injEq] at h
      obtain ⟨rd, hrd, hcm, hl⟩ := h
      exact ⟨r, p, rd, rfl, hrd, hcm, hl⟩
  | _ => cases h

/-! ## What the answers confirm -/

section Runs

variable [Inhabited C] {tr : Trace n C} {st : Cluster n C}

/-- The counts are right in every run. -/
theorem countsOk_of_run (h : (cluster n C).Run tr st) : CountsOk st := by
  induction h with
  | init =>
      intro rd hrd
      simp [cluster, Cluster.make] at hrd
  | step h hs ih => exact ih.step (Step.of_cluster hs)

/-- Where elections are safe, no two peers append entries of one term. -/
theorem oneAppender_of_run (h : (cluster n C).Run tr st)
    (hD : Avoids (fun x a => electionSlip x a) tr) : OneAppenderPerTerm tr := by
  -- whoever appends in a term has won it
  have hwon : ∀ q ∈ tr, ∀ u ∈ appender q.1 q.2, Won st u.1 u.2 := by
    rintro ⟨x, a⟩ hq ⟨s, T⟩ hu
    cases a with
    | start s' c =>
        simp only [appender, Option.mem_def, Option.ite_none_right_eq_some, Option.some.injEq,
          Prod.mk.injEq] at hu
        obtain ⟨hl, rfl, rfl⟩ := hu
        obtain ⟨tr₁, tr₂, -, rfl, hrun, -⟩ := h.of_mem hq
        have hD' : Avoids (fun x a => electionSlip x a) tr₂ :=
          fun q' hq' => hD q' (List.mem_append_right _ (List.mem_cons_of_mem _ hq'))
        exact (won_of_leader hrun (avoids_raisesLeader hD') hl).mono h (Or.inr ⟨_, hq⟩)
    | _ => cases hu
  intro q hq q' hq' u hu u' hu' hT
  exact (hwon q hq u hu).unique (votes_of_run h (avoids_forgetsVote hD)).2
    (hT ▸ hwon q' hq' u' hu')

/-- **What a success says**: when it was given, the peer was in the term of the request and had the
log the sender had when it built the request. -/
def Acked (tr : Trace n C) (st : Cluster n C) : Prop :=
  ∀ r rd, st.rounds[r]? = some rd → ∀ q args reply, (rd.calls q).answer? = some (args, reply) →
    reply.success = true → ∃ y w, Visited tr st y ∧ BuiltIn tr r q rd.leader args w ∧
      (y.rafts q).currentTerm = args.term ∧ (y.rafts q).log = (w.rafts rd.leader).log

/-- Without slips every success in a run comes from a peer that stored the request. -/
theorem acked_of_run (h : (cluster n C).Run tr st) (hD : Avoids (fun x a => ackSlip x a) tr) :
    Acked tr st := by
  refine System.Run.induction_avoiding (P := Acked) ?_ ?_ h hD
  · intro r rd hrd
    simp [cluster, Cluster.make] at hrd
  · intro tr x a y hx hav ih hnot hs r rd hrd q args reply hans hr
    obtain ⟨rd₀, hrd₀, hlead, hans | ⟨rfl, hc, hacc⟩⟩ :=
      ((Step.of_cluster hs).round hrd).answer hans
    · obtain ⟨z, w, hz, hb, hT, hlog⟩ := ih r rd₀ hrd₀ q args reply hans hr
      exact ⟨z, w, hz.cons, hlead ▸ hb.mono (List.subset_cons_self _ _), hT, hlead ▸ hlog⟩
    · rcases hacc hr with ⟨hf, hle⟩ | ⟨hacc, hy⟩
      · refine absurd ?_ hnot
        simp [ackSlip, acksUnstored, Cluster.beatRequest?_eq_some hrd₀ hc, hf, hle]
      · obtain ⟨w, hb⟩ := (built_of_run hx r rd₀ hrd₀).2 q args (by simp [hc])
        have hu := oneAppender_of_run hx (avoids_electionSlip hav)
        refine ⟨y, w, Visited.now _ _, hlead ▸ hb.mono (List.subset_cons_self _ _), by simp [hy],
          ?_⟩
        rw [hy, ← hlead]
        exact accept_log_eq_sender hx hu hb hacc args.term

/-- A request that covers the log of a peer which still leads was built from that very log. -/
lemma log_eq_of_covers (h : (cluster n C).Run tr st) {r : ℕ} {p s : Fin n}
    {args : AppendEntriesArgs n C} {w : Cluster n C} (hb : BuiltIn tr r p s args w)
    (hl : (st.rafts s).state = .leader) (hc : (st.rafts s).covers args) :
    (w.rafts s).log = (st.rafts s).log := by
  simp only [Raft.covers, decide_eq_true_eq] at hc
  obtain ⟨hT, hlen⟩ := hc
  obtain ⟨hTw, -, h0, ⟨prev, hprev, -⟩, hent, -⟩ := Raft.heartBeatArgs_eq_some hb.eq
  have hlt := (List.getElem?_eq_some_iff.mp hprev).1
  rw [hent, List.length_drop] at hlen
  have hphase := phase_of_visited h (hb.visited _) s
  exact (hphase.2 (hTw.symm.trans hT) (by simp [hl])).2.eq_of_length (by omega)

/-- **A majority stores what is committed**: when `s` sets `commitIndex`, a majority of the peers,
`s` included, has been in the term of `s` with the log `s` has now. -/
theorem stored_of_commit {a : Action n C} {s : Fin n} (h : (cluster n C).Run tr st)
    (hD : Avoids (fun x a => ackSlip x a) tr) (hcov : ¬ uncovered st a)
    (hc : committer st a = some s) :
    (st.rafts s).state = .leader ∧ ∃ Q : Finset (Fin n), Majority Q ∧ s ∈ Q ∧
      ∀ v ∈ Q, ∃ x, Visited tr st x ∧ (x.rafts v).currentTerm = (st.rafts s).currentTerm ∧
        (x.rafts v).log = (st.rafts s).log := by
  obtain ⟨r, p, rd, rfl, hrd, hcm, rfl⟩ := committer_eq_some hc
  have hcov : rd.covered (st.rafts rd.leader) p := by
    by_contra hnot
    exact hcov (by simp [uncovered, hrd, hcm, hnot])
  simp only [Round.covered, decide_eq_true_eq, Option.mem_def, Prod.forall] at hcov
  obtain ⟨hl, hcov⟩ := hcov
  obtain ⟨args, reply, hcall, hsucc, hd, hq⟩ := Round.commits_iff.mp hcm
  have hself := (built_of_run h r rd hrd).1
  refine ⟨hl, insert rd.leader (insert p rd.counted), ?_, Finset.mem_insert_self _ _, ?_⟩
  · have hle := countsOk_of_run h rd (List.mem_of_getElem? hrd)
    rw [Majority, Fintype.card_fin, Round.counted, Rpc.card_insert_counted hself hcall]
    rw [Round.counted] at hle
    omega
  · -- everyone but the sender has answered with success
    have hans : ∀ v ∈ insert p rd.counted, ∃ args reply,
        (rd.calls v).answer? = some (args, reply) ∧ reply.success = true := by
      intro v hv
      rcases Finset.mem_insert.mp hv with rfl | hv
      · exact ⟨args, reply, by simp [hcall], hsucc⟩
      · obtain ⟨args', reply', hv, hs'⟩ := Rpc.mem_counted.mp hv
        exact ⟨args', reply', by simp [hv], hs'⟩
    intro v hv
    rcases Finset.mem_insert.mp hv with rfl | hv
    · exact ⟨st, Visited.now _ _, rfl, rfl⟩
    · obtain ⟨args', reply', hv', hs'⟩ := hans v hv
      obtain ⟨y, w, hy, hb, hT, hlog⟩ := acked_of_run h hD r rd hrd v args' reply' hv' hs'
      have hcv := hcov v hv args' reply' hv'
      refine ⟨y, hy, hT.trans ?_, hlog.trans (log_eq_of_covers h hb hl hcv)⟩
      simp only [Raft.covers, decide_eq_true_eq] at hcv
      exact hcv.1

/-! ## Commit only what a majority stored -/

/-- The log `L` has, at all indices `1..k`, the entries of `M`. -/
def SameUpTo (k : ℤ) (L M : List (LogEntry C)) : Prop :=
  k < L.length ∧ ∀ i ≤ k.toNat, 1 ≤ i → L[i]? = M[i]?

/-- `v` has, or had at an earlier moment of the run, the entries of `M` at all indices `1..k`. -/
def Stored (tr : Trace n C) (st : Cluster n C) (v : Fin n) (k : ℤ) (M : List (LogEntry C)) : Prop :=
  SameUpTo k (st.rafts v).log M ∨ ∃ q ∈ tr, SameUpTo k (q.1.rafts v).log M

/-- A majority of the peers, `s` included, has or had what `s` has committed. -/
def MajorityStored (tr : Trace n C) (st : Cluster n C) (s : Fin n) : Prop :=
  ∃ Q : Finset (Fin n), Majority Q ∧ s ∈ Q ∧
    ∀ v ∈ Q, Stored tr st v (st.rafts s).commitIndex (st.rafts s).log

instance [DecidableEq C] (k : ℤ) (L M : List (LogEntry C)) : Decidable (SameUpTo k L M) :=
  inferInstanceAs (Decidable (_ ∧ _))

instance [DecidableEq C] (tr : Trace n C) (st : Cluster n C) (v : Fin n) (k : ℤ)
    (M : List (LogEntry C)) : Decidable (Stored tr st v k M) :=
  inferInstanceAs (Decidable (_ ∨ _))

instance [DecidableEq C] (tr : Trace n C) (st : Cluster n C) (s : Fin n) :
    Decidable (MajorityStored tr st s) :=
  inferInstanceAs (Decidable (∃ Q : Finset (Fin n), Fintype.card (Fin n) < 2 * Q.card ∧ _))

/-- What the handler that sets `commitIndex` leaves. -/
lemma commitIndex_of_committer {st' : Cluster n C} {a : Action n C} {s : Fin n}
    (hs : (cluster n C).step st a = some st') (hc : committer st a = some s) :
    (st'.rafts s).commitIndex = ((st.rafts s).log.length : ℤ) - 1 ∧
      (st'.rafts s).log = (st.rafts s).log ∧
      (st'.rafts s).currentTerm = (st.rafts s).currentTerm := by
  obtain ⟨r, p, rd, rfl, hrd, hcm, rfl⟩ := committer_eq_some hc
  cases Step.of_cluster hs with
  | idle h => exact h.elim
  | beatDemote hrd' hcall hf =>
      obtain rfl := Option.some.inj (hrd.symm.trans hrd')
      simp [Round.commits_iff, hcall, hf] at hcm
  | beatBackUp hrd' hcall hf =>
      obtain rfl := Option.some.inj (hrd.symm.trans hrd')
      simp [Round.commits_iff, hcall, hf] at hcm
  | beatCount hrd' hcall hf hn hm hd =>
      obtain rfl := Option.some.inj (hrd.symm.trans hrd')
      obtain ⟨-, -, -, -, hd', hq⟩ := Round.commits_iff.mp hcm
      rcases hd with hd | hd
      · rw [hd] at hd'
        cases hd'
      · omega
  | beatCommit hrd' hcall hf hn hm hd hq =>
      obtain rfl := Option.some.inj (hrd.symm.trans hrd')
      simp

/-- **Commit only what a majority stored**: whenever the handler of an answer sets `commitIndex`, a
majority of the peers has, or had, all entries up to it. This holds in every run in which no
`RequestVote` of a higher term reaches a leader, no candidate or leader answers an `AppendEntries`
with success, and a peer that sets `commitIndex` still leads and has counted only answers to
requests of its term that went up to the end of its log. -/
theorem majorityStored {st' : Cluster n C} {a : Action n C} {s : Fin n}
    (h : (cluster n C).Run tr st) (hD : Avoids (fun x a => commitSlip x a) ((st, a) :: tr))
    (hs : (cluster n C).step st a = some st') (hc : committer st a = some s) :
    MajorityStored ((st, a) :: tr) st' s := by
  have hcov : ¬ uncovered st a := fun hu => hD.head (by simp [commitSlip, hu])
  obtain ⟨-, Q, hQ, hsQ, hv⟩ := stored_of_commit h (avoids_ackSlip hD.tail) hcov hc
  obtain ⟨hci, hlog, -⟩ := commitIndex_of_committer hs hc
  refine ⟨Q, hQ, hsQ, fun v hvQ => ?_⟩
  obtain ⟨x, hx, -, hxlog⟩ := hv v hvQ
  have hsame : SameUpTo (st'.rafts s).commitIndex (x.rafts v).log (st'.rafts s).log := by
    rw [hci, hlog, hxlog]
    exact ⟨by omega, fun _ _ _ => rfl⟩
  rcases hx.cons (y := st') (a := a) with rfl | ⟨b, hb⟩
  · exact Or.inl hsame
  · exact Or.inr ⟨_, hb, hsame⟩

/-- The leader of three peers commits an entry that it and peer 1 hold. -/
theorem majorityStored_run : ∃ tr st st', (cluster 3 ℕ).Run tr st ∧
    (cluster 3 ℕ).step st (.heartBeatReply 0 1) = some st' ∧ (st'.rafts 0).commitIndex = 1 ∧
    MajorityStored ((st, .heartBeatReply 0 1) :: tr) st' 0 := by
  obtain ⟨tr, st, h, hD, hc, hs⟩ := (cluster 3 ℕ).exists_run_of_exec
    [.timer 0, .attemptEletion 0, .requestVote 0 1, .voteReply 0 1, .start 0 10, .heartBeat 0,
      .heartBeatArgs 0 1, .appendEntries 0 1]
    (fun tr st => Avoids (fun x a => commitSlip x a) ((st, .heartBeatReply 0 1) :: tr) ∧
      committer st (.heartBeatReply 0 1) = some 0 ∧
      ∃ st' ∈ st.step (.heartBeatReply 0 1), (st'.rafts 0).commitIndex = 1) (by decide)
  obtain ⟨st', hs, hci⟩ := hs
  exact ⟨tr, st, st', h, hs, hci, majorityStored h hD hs hc⟩

/-- A run of `n` peers that takes none of the steps `D` and ends with a commit that no majority
stored. -/
def CommitsUnstored (n : ℕ) (D : Cluster n ℕ → Action n ℕ → Bool) : Prop :=
  ∃ tr st st' a s, (cluster n ℕ).Run tr st ∧ Avoids (fun x a => D x a) ((st, a) :: tr) ∧
    (cluster n ℕ).step st a = some st' ∧ committer st a = some s ∧
    ¬ MajorityStored ((st, a) :: tr) st' s

/-- Such a run, from a list of actions that can be executed. -/
lemma CommitsUnstored.of_exec {n : ℕ} {D : Cluster n ℕ → Action n ℕ → Bool}
    (as : List (Action n ℕ)) (a : Action n ℕ) (s : Fin n)
    (h : ((cluster n ℕ).exec as).any (fun q => decide
      (Avoids (fun x a => D x a) ((q.2, a) :: q.1) ∧ committer q.2 a = some s ∧
        ∃ st' ∈ q.2.step a, ¬ MajorityStored ((q.2, a) :: q.1) st' s)) = true) :
    CommitsUnstored n D := by
  obtain ⟨tr, st, hrun, hD, hc, st', hs, hnot⟩ := (cluster n ℕ).exists_run_of_exec as
    (fun tr st => Avoids (fun x a => D x a) ((st, a) :: tr) ∧ committer st a = some s ∧
      ∃ st' ∈ st.step a, ¬ MajorityStored ((st, a) :: tr) st' s) h
  exact ⟨tr, st, st', a, s, hrun, hD, hs, hc, hnot⟩

/-- Three runs that end with a commit that no majority stored, each with only one of the slips.

* Peer 0 takes over term 2 from the `RequestVote` of peer 1 and stays leader, so both append entries
  of term 2. Peer 2 stores the entry of 1, then the one of 0 in its place, then the second entry of
  1 behind it, and 1 commits both its entries.
* Peers 0 and 1 stand for term 1 and 2 elects 0. Peer 1 is still a candidate when the first entry
  arrives, answers success and stores nothing, and 0 commits the entry.
* Peer 0 appends an entry while its heartbeat is under way, and commits it with the answer. -/
theorem majorityStored_fails :
    CommitsUnstored 3 (fun x a => acksUnstored x a || uncovered x a) ∧
    CommitsUnstored 3 (fun x a => raisesLeader x a || uncovered x a) ∧
    CommitsUnstored 3 (fun x a => raisesLeader x a || acksUnstored x a) := by
  refine ⟨?_, ?_, ?_⟩
  · exact .of_exec
      [.timer 0, .attemptEletion 0, .requestVote 0 1, .voteReply 0 1,
        .timer 1, .attemptEletion 1, .requestVote 1 0, .requestVote 1 2, .voteReply 1 2,
        .start 0 10, .start 1 20,
        .heartBeat 1, .heartBeatArgs 0 2, .appendEntries 0 2, .heartBeatReply 0 2,
        .heartBeat 0, .heartBeatArgs 1 2, .appendEntries 1 2,
        .start 1 30, .heartBeat 1, .heartBeatArgs 2 2, .appendEntries 2 2]
      (.heartBeatReply 2 2) 1 (by decide)
  · exact .of_exec
      [.timer 0, .attemptEletion 0, .timer 1, .attemptEletion 1, .requestVote 0 2, .voteReply 0 2,
        .start 0 10, .heartBeat 0, .heartBeatArgs 0 1, .appendEntries 0 1]
      (.heartBeatReply 0 1) 0 (by decide)
  · exact .of_exec
      [.timer 0, .attemptEletion 0, .requestVote 0 1, .voteReply 0 1, .heartBeat 0,
        .heartBeatArgs 0 1, .appendEntries 0 1, .start 0 10]
      (.heartBeatReply 0 1) 0 (by decide)

end Runs

end GoLabs.Consensus
